import Mathlib.Tactic.SplitIfs
import Xv6.Trap.Trampoline

/-!
# Trap entry

What `uservec` does with the registers of the user and the trapframe of the process. The user
chooses the address to which `uservec` spills `r0` before it has a register free, so the spill may
go to a device register or to the trapframe itself; `uservec_safe_iff` says for which registers the
entry is nevertheless the intended one.
-/

namespace Xv6

open Machine

/-- The address to which `uservec` spills the user's `r0`. -/
def spillAddr (m : Machine) : Word := m.reg 13 + (-4)

/-- The registers that `uservec` stores first, with their words of the trapframe. -/
def savedRegs : List (Reg × ℕ) :=
  [(14, 19), (1, 6), (2, 7), (3, 8), (4, 9), (5, 10), (6, 11), (7, 12), (8, 13), (9, 14), (10, 15),
   (11, 16), (12, 17)]

/-- The rest of `uservec`. -/
def uservecTail : List Instr :=
  [.addi 1 13 4, .sw 1 72 0,
   .lw 1 0 13, .sw 1 20 0,
   .mov 14 0,
   .movi 0 0xF000, .movhi 0 0x03FF, .lw 0 0 0, .sw 0 12 14,
   .lw 13 4 14, .lw 11 16 14, .lw 0 8 14, .lw 1 0 14,
   .movi 2 0xF018, .movhi 2 0x03FF, .sw 1 0 2,
   .callr 14 0]

theorem uservec_split : uservec = .addi 13 13 (-4) :: .sw 0 0 13 :: .movi 0 0xD000 ::
    .movhi 0 0x03EF :: (saves 0 savedRegs ++ uservecTail) := rfl

/-- The memory when `uservec` calls `usertrap`, with `r0` spilled to the word `p`. -/
def entryRam (U : UserSpace) (m : Machine) (p : ℕ × ℕ) : ℕ × ℕ → Word :=
  let ram := Function.update (saved U.tf m.reg savedRegs (Function.update m.ram p (m.reg 0)))
    (U.tf, slot 13) (m.reg 13)
  Function.update (Function.update ram (U.tf, slot 0) (ram p)) (U.tf, 3) (m.mmio regEpc)

section Entry

variable {U : UserSpace} {m : Machine} {l : Leaf}

theorem saved_congr {tf : ℕ} {reg reg' : Reg → Word} {l : List (Reg × ℕ)} {ram : ℕ × ℕ → Word}
    (h : ∀ e ∈ l, reg e.1 = reg' e.1) : saved tf reg l ram = saved tf reg' l ram := by
  induction l generalizing ram with
  | nil => rfl
  | cons e l ih =>
    rw [saved, saved, h e List.mem_cons_self, ih fun e he => h e (List.mem_cons_of_mem _ he)]

variable {m' : Machine} {a c sp : Word} {is : List Instr}

/-- The original stack pointer and the spilled `r0` go to the trapframe. -/
theorem exec_spilled (hm : m.mapping m.satp = U.leaf) (hr : m.reg 0 = trapframe)
    (hsp : m.reg 13 = a) (ha : a.toNat % 4 = 0) (hlt : a.toNat < mmioBase)
    (hl : U.leaf (vpn a) = some l) {x : Word}
    (hx : Function.update m.ram (U.tf, slot 13) (a + 4) (l.frame, wordIdx a) = x)
    (h : exec (c + 4 + 4 + 4 + 4) is
      (((m.setRam (U.tf, slot 13) (a + 4)).setRam (U.tf, slot 0) x).setReg 1 x) = some m') :
    exec c (.addi 1 13 4 :: .sw 1 72 0 :: .lw 1 0 13 :: .sw 1 20 0 :: is) m = some m' := by
  have hone : (13 : Reg) ≠ 1 := by decide
  have hzero : (0 : Reg) ≠ 1 := by decide
  let m₁ := m.setReg 1 (a + 4)
  have h₁ : step c m (.addi 1 13 4) = some m₁ := by rw [step, hsp]
  let m₂ := m₁.setRam (U.tf, slot 13) (a + 4)
  have h₂ : step (c + 4) m₁ (.sw 1 72 0) = some m₂ := by
    have hv : m₁.reg 1 = a + 4 := by simp [m₁]
    have hb : m₁.reg 0 = trapframe := by simp [m₁, hzero, hr]
    refine (step_sw_trapframe (U := U) (m := m₁) hm hb 18 (by omega) rfl).trans ?_
    rw [hv]
    rfl
  have h₃ : step (c + 4 + 4) m₂ (.lw 1 0 13) = some (m₂.setReg 1 x) := by
    have hb : m₂.reg 13 + 0 = a := by
      simp [m₂, m₁, hone, hsp]
    refine step_load ?_
    rw [hb, load_leaf ha hlt (by rw [← hl]; exact congrFun hm _) (U.readable _ _ hl)]
    exact congrArg some hx
  have h₄ : step (c + 4 + 4 + 4) (m₂.setReg 1 x) (.sw 1 20 0) =
      some ((m₂.setReg 1 x).setRam (U.tf, slot 0) x) := by
    have hv : (m₂.setReg 1 x).reg 1 = x := by simp
    have hb : (m₂.setReg 1 x).reg 0 = trapframe := by simp [m₂, m₁, hzero, hr]
    refine (step_sw_trapframe (U := U) (m := m₂.setReg 1 x) hm hb 5 (by omega) rfl).trans ?_
    rw [hv]
    rfl
  refine exec_cons h₁ (exec_cons h₂ (exec_cons h₃ (exec_cons h₄ ?_)))
  rw [← h]
  congr 1
  simp [m₂, m₁, setReg, setRam]

/-- `EPC` goes to the trapframe. -/
theorem exec_epc (hm : m.mapping m.satp = U.leaf) (hr : m.reg 0 = trapframe)
    (h : exec (c + 4 + 4 + 4 + 4 + 4) is (((m.setRam (U.tf, 3) (m.mmio regEpc)).setReg 14
      trapframe).setReg 0 (m.mmio regEpc)) = some m') :
    exec c (.mov 14 0 :: .movi 0 0xF000 :: .movhi 0 0x03FF :: .lw 0 0 0 :: .sw 0 12 14 :: is) m =
      some m' := by
  let m₁ := m.setReg 14 trapframe
  have h₁ : step c m (.mov 14 0) = some m₁ := by rw [step, hr]
  let m₂ := (m₁.setReg 0 regEpc).setReg 0 (m.mmio regEpc)
  have h₂ : step (c + 4 + 4 + 4) (m₁.setReg 0 regEpc) (.lw 0 0 0) = some m₂ := by
    refine step_load ?_
    have hb : (m₁.setReg 0 regEpc).reg 0 + 0 = regEpc := by simp
    rw [hb]
    exact load_mmio (by decide) (by decide)
  have h₃ : step (c + 4 + 4 + 4 + 4) m₂ (.sw 0 12 14) = some (m₂.setRam (U.tf, 3) (m₂.reg 0)) :=
    step_sw_trapframe (U := U) (m := m₂) hm (by simp [m₂, m₁]) 3 (by omega) rfl
  refine exec_cons h₁ (exec_const (v := regEpc) (by decide) (exec_cons h₂ (exec_cons h₃ ?_)))
  rw [← h]
  congr 1
  simp [m₂, m₁, setReg, setRam]

/-- What the call of `usertrap` finds, with `R` the memory. -/
structure Called (U : UserSpace) (R : ℕ × ℕ → Word) (m m' : Machine) : Prop where
  ram : m'.ram = R
  pc : m'.pc = R (U.tf, 2)
  sp : m'.reg 13 = R (U.tf, 1)
  hartid : m'.reg 11 = R (U.tf, 4)
  mmio : m'.mmio = Function.update m.mmio regSatp (R (U.tf, 0))
  writes : m'.writes = (regSatp, R (U.tf, 0)) :: m.writes
  mapping : m'.mapping = m.mapping

/-- The kernel's stack, hart, page table and trap handler come from the trapframe. -/
theorem exec_call (hm : m.mapping m.satp = U.leaf) (hr : m.reg 14 = trapframe) :
    ∃ m', exec c [.lw 13 4 14, .lw 11 16 14, .lw 0 8 14, .lw 1 0 14, .movi 2 0xF018,
      .movhi 2 0x03FF, .sw 1 0 2, .callr 14 0] m = some m' ∧ m'.reg 14 = c + 28 + 4 ∧
      Called U m.ram m m' := by
  let l : List (Reg × ℕ) := [(13, 1), (11, 4), (0, 2), (1, 0)]
  let m₁ : Machine := { m with reg := loaded U.tf m.ram l m.reg }
  let m₂ := m₁.setReg 2 regSatp
  let m₃ := m₂.setMmio regSatp (m.ram (U.tf, 0))
  have haddr : ∀ c : Word, c + BitVec.ofNat 32 (4 * l.length) + 4 + 4 + 4 = c + 28 := fun c => by
    simp only [BitVec.add_assoc]
    rfl
  have h₃ : ∀ c, step c m₂ (.sw 1 0 2) = some m₃ := fun c => by
    have hb : m₂.reg 2 + 0 = regSatp := by simp [m₂]
    have hv : m₂.reg 1 = m.ram (U.tf, 0) := by simp [m₂, m₁, l, loaded]
    rw [step, hb, hv, store_mmio (by decide) (by decide)]
  have h₄ : ∀ c, step c m₃ (.callr 14 0) = some { m₃.setReg 14 (c + 4) with pc := m₃.reg 0 } :=
    fun c => rfl
  have hexec : exec c (loads 14 l ++ [.movi 2 0xF018, .movhi 2 0x03FF, .sw 1 0 2, .callr 14 0]) m =
      some { m₃.setReg 14 (c + 28 + 4) with pc := m₃.reg 0 } := by
    refine exec_loads (U := U) hm hr (by decide) (exec_const (v := regSatp) (by decide)
      (exec_cons (h₃ _) (exec_cons (h₄ _) ?_)))
    rw [haddr]
    rfl
  refine ⟨_, hexec, by simp, rfl, ?_, ?_, ?_, rfl, rfl, rfl⟩
  all_goals simp [m₃, m₂, m₁, l, loaded, setMmio]

/-- **The effect of `uservec`**, when the word below the user's stack pointer is in a writable page
of the user address space. -/
theorem uservec_eq (hm : m.mapping m.satp = U.leaf) (ha : (spillAddr m).toNat % 4 = 0)
    (hlt : (spillAddr m).toNat < mmioBase) (hl : U.leaf (vpn (spillAddr m)) = some l)
    (hw : l.writable = true) :
    ∃ m', exec trampoline uservec m = some m' ∧ m'.reg 14 = userretAddr ∧
      Called U (entryRam U m (l.frame, wordIdx (spillAddr m))) m m' := by
  generalize hp : (l.frame, wordIdx (spillAddr m)) = p
  let m₁ := m.setReg 13 (spillAddr m)
  have h₁ : step trampoline m (.addi 13 13 (-4)) = some m₁ := rfl
  let m₂ := m₁.setRam p (m.reg 0)
  have h₂ : ∀ c, step c m₁ (.sw 0 0 13) = some m₂ := fun c => by
    have hb : m₁.reg 13 + 0 = spillAddr m := by simp [m₁]
    have hv : m₁.reg 0 = m.reg 0 := by simp [m₁]
    rw [step, hb, hv, store_leaf ha hlt (by rw [← hl]; exact congrFun hm _) hw, hp]
  let m₃ := m₂.setReg 0 trapframe
  let m₄ : Machine := { m₃ with ram := saved U.tf m₃.reg savedRegs m₃.ram }
  have hsaved : saved U.tf m₃.reg savedRegs m₃.ram =
      saved U.tf m.reg savedRegs (Function.update m.ram p (m.reg 0)) := by
    refine saved_congr fun e he => ?_
    have hne : e.1 ≠ 0 ∧ e.1 ≠ 13 := by
      revert e
      decide
    simp [m₃, m₂, m₁, hne.1, hne.2]
  have hsp : spillAddr m + 4 = m.reg 13 := by
    simp [spillAddr, BitVec.add_assoc]
  let m₅ := ((m₄.setRam (U.tf, slot 13) (m.reg 13)).setRam (U.tf, slot 0)
    (Function.update m₄.ram (U.tf, slot 13) (m.reg 13) p)).setReg 1
      (Function.update m₄.ram (U.tf, slot 13) (m.reg 13) p)
  let m₆ := ((m₅.setRam (U.tf, 3) (m₅.mmio regEpc)).setReg 14 trapframe).setReg 0 (m₅.mmio regEpc)
  obtain ⟨m', hexec, hlink, hcalled⟩ := exec_call (U := U) (m := m₆)
    (c := trampoline + 4 + 4 + 4 + 4 + BitVec.ofNat 32 (4 * savedRegs.length) + 4 + 4 + 4 + 4 + 4 + 4
      + 4 + 4 + 4) hm (by simp [m₆])
  have hram : m₆.ram = entryRam U m p := by
    simp only [m₆, m₅, m₄, hsaved, entryRam, setReg_ram, setRam_ram]
    rfl
  refine ⟨m', ?_, ?_, ?_⟩
  · rw [uservec_split]
    refine exec_cons h₁ (exec_cons (h₂ _) (exec_const (v := trapframe) (by decide) ?_))
    refine exec_saves (U := U) (m := m₃) hm (by simp [m₃]) (by decide) ?_
    refine exec_spilled (U := U) (m := m₄) (a := spillAddr m) (l := l) hm (by simp [m₄, m₃])
      (by simp [m₄, m₃, m₂, m₁]) ha hlt hl rfl ?_
    rw [hsp, hp]
    exact exec_epc (U := U) (m := m₅) hm (by simp [m₅, m₄, m₃]) hexec
  · rw [hlink]
    rfl
  · rw [hram] at hcalled
    exact ⟨hcalled.ram, hcalled.pc, hcalled.sp, hcalled.hartid, hcalled.mmio, hcalled.writes,
      hcalled.mapping⟩

/-! ## The words of the trapframe -/

theorem saved_of_ne {tf : ℕ} {reg : Reg → Word} {l : List (Reg × ℕ)} {ram : ℕ × ℕ → Word} {q : ℕ × ℕ}
    (h : ∀ e ∈ l, q ≠ (tf, e.2)) : saved tf reg l ram q = ram q := by
  induction l generalizing ram with
  | nil => rfl
  | cons e l ih =>
    rw [saved, ih fun e he => h e (List.mem_cons_of_mem _ he),
      Function.update_of_ne (h e List.mem_cons_self)]

theorem saved_of_mem {tf : ℕ} {reg : Reg → Word} {l : List (Reg × ℕ)} {ram : ℕ × ℕ → Word}
    (hl : l.Pairwise fun e e' => e.2 ≠ e'.2) {e : Reg × ℕ} (he : e ∈ l) :
    saved tf reg l ram (tf, e.2) = reg e.1 := by
  induction l generalizing ram with
  | nil => cases he
  | cons d l ih =>
    rw [List.pairwise_cons] at hl
    rcases List.mem_cons.1 he with rfl | he
    · rw [saved, saved_of_ne fun e' he' hq => hl.1 e' he' (Prod.mk.inj hq).2, Function.update_self]
    · exact ih hl.2 he

variable {p : ℕ × ℕ}

/-- The memory after the stores of `r1` to `r14`. -/
theorem saved_slot {r : Reg} (hr : r ≠ 0) (ram : ℕ × ℕ → Word) :
    Function.update (saved U.tf m.reg savedRegs ram) (U.tf, slot 13) (m.reg 13) (U.tf, slot r) =
      m.reg r := by
  by_cases h13 : r = 13
  · rw [h13, Function.update_self]
  · have hne : (U.tf, slot r) ≠ (U.tf, slot 13) := by
      intro h
      have := (Prod.mk.inj h).2
      simp only [slot] at this
      exact h13 (Fin.ext (by omega))
    have hmem : (r, slot r) ∈ savedRegs := by
      clear hne
      revert r
      decide
    rw [Function.update_of_ne hne]
    exact saved_of_mem (by decide) hmem

theorem saved_other {q : ℕ × ℕ} (hq : ∀ r : Reg, r ≠ 0 → q ≠ (U.tf, slot r)) (ram : ℕ × ℕ → Word) :
    Function.update (saved U.tf m.reg savedRegs ram) (U.tf, slot 13) (m.reg 13) q = ram q := by
  rw [Function.update_of_ne (hq 13 (by decide))]
  refine saved_of_ne fun e he => ?_
  have : e.1 ≠ 0 ∧ slot e.1 = e.2 := by
    revert e
    decide
  rw [← this.2]
  exact hq e.1 this.1

/-- Every register but `r0` is in its slot. -/
theorem entryRam_slot {r : Reg} (hr : r ≠ 0) : entryRam U m p (U.tf, slot r) = m.reg r := by
  have h₃ : (U.tf, slot r) ≠ (U.tf, 3) := fun h => by
    have := (Prod.mk.inj h).2
    simp only [slot] at this
    omega
  have h₀ : (U.tf, slot r) ≠ (U.tf, slot 0) := fun h => by
    have := (Prod.mk.inj h).2
    simp only [slot] at this
    exact hr (Fin.ext (by omega))
  simp only [entryRam]
  rw [Function.update_of_ne h₃, Function.update_of_ne h₀, saved_slot hr]

/-- The slot of `r0` holds `r0`, unless another slot was spilled to. -/
theorem entryRam_slot_zero : entryRam U m p (U.tf, slot 0) =
    Function.update (saved U.tf m.reg savedRegs (Function.update m.ram p (m.reg 0)))
      (U.tf, slot 13) (m.reg 13) p := by
  have h₃ : (U.tf, slot 0) ≠ (U.tf, 3) := fun h => by
    have := (Prod.mk.inj h).2
    simp only [slot] at this
    omega
  simp only [entryRam]
  rw [Function.update_of_ne h₃, Function.update_self]

/-- The words that no instruction of `uservec` addresses change only by the spill. -/
theorem entryRam_other {q : ℕ × ℕ} (h₃ : q ≠ (U.tf, 3)) (hq : ∀ r : Reg, q ≠ (U.tf, slot r)) :
    entryRam U m p q = Function.update m.ram p (m.reg 0) q := by
  simp only [entryRam]
  rw [Function.update_of_ne h₃, Function.update_of_ne (hq 0), saved_other fun r _ => hq r]

/-! ## Safe registers -/

/-- The words of the trapframe that the kernel set: `kernel_satp`, `kernel_sp`, `kernel_trap` and
`kernel_hartid`. -/
def kernelWords : List ℕ := [0, 1, 2, 4]

/-- The intended entry: the kernel's words of the trapframe are as they were, the only device or
processor register written is `SATP` with `kernel_satp`, the jump goes to `kernel_trap` on the stack
`kernel_sp`, and the user's registers are in the trapframe. -/
structure Entered (U : UserSpace) (m m' : Machine) : Prop where
  kernel : ∀ k ∈ kernelWords, m'.ram (U.tf, k) = m.ram (U.tf, k)
  writes : m'.writes = (regSatp, m.ram (U.tf, 0)) :: m.writes
  pc : m'.pc = m.ram (U.tf, 2)
  sp : m'.reg 13 = m.ram (U.tf, 1)
  regs : ∀ r, m'.ram (U.tf, slot r) = m.reg r

/-- A spill to word `k` of the trapframe does no harm: it is none of the kernel's words, or `r0`
happens to be what is there; and it is not the slot of another register, unless that register
happens to be `r0`. -/
structure SlotSafe (U : UserSpace) (m : Machine) (k : ℕ) : Prop where
  kernel : k ∈ kernelWords → m.reg 0 = m.ram (U.tf, k)
  regs : ∀ r, k = slot r → m.reg 0 = m.reg r

/-- The spill of `uservec` goes to a word of a writable page below the device registers, and does no
harm if that is the page of the trapframe. -/
structure SpillSafe (U : UserSpace) (m : Machine) : Prop where
  aligned : (spillAddr m).toNat % 4 = 0
  below : (spillAddr m).toNat < mmioBase
  mapped : ∃ l, U.leaf (vpn (spillAddr m)) = some l ∧ l.writable = true
  slot : vpn (spillAddr m) = trapframePage → SlotSafe U m (wordIdx (spillAddr m))

theorem kernelWords_ne {k : ℕ} (hk : k ∈ kernelWords) :
    (U.tf, k) ≠ (U.tf, 3) ∧ ∀ r : Reg, (U.tf, k) ≠ (U.tf, Xv6.slot r) := by
  have hk' : k = 0 ∨ k = 1 ∨ k = 2 ∨ k = 4 := by simpa [kernelWords] using hk
  refine ⟨fun h => ?_, fun r h => ?_⟩
  · have := (Prod.mk.inj h).2
    omega
  · have := (Prod.mk.inj h).2
    simp only [Xv6.slot] at this
    omega

/-- After a safe spill the kernel's words are as they were. -/
theorem SpillSafe.entryRam_kernel {l : Leaf} (h : SpillSafe U m)
    (hl : U.leaf (vpn (spillAddr m)) = some l) {k : ℕ} (hk : k ∈ kernelWords) :
    entryRam U m (l.frame, wordIdx (spillAddr m)) (U.tf, k) = m.ram (U.tf, k) := by
  obtain ⟨h₃, hs⟩ := kernelWords_ne (U := U) hk
  rw [entryRam_other h₃ hs]
  by_cases hp : (U.tf, k) = (l.frame, wordIdx (spillAddr m))
  · have hv := U.inj _ _ _ _ U.at_trapframe hl (Prod.mk.inj hp).1
    rw [hp, Function.update_self, ← hp, (h.slot hv.symm).kernel ((Prod.mk.inj hp).2 ▸ hk),
      ← (Prod.mk.inj hp).2]
  · rw [Function.update_of_ne hp]

/-- After a safe spill every register is in its slot. -/
theorem SpillSafe.entryRam_regs {l : Leaf} (h : SpillSafe U m)
    (hl : U.leaf (vpn (spillAddr m)) = some l) (r : Reg) :
    entryRam U m (l.frame, wordIdx (spillAddr m)) (U.tf, Xv6.slot r) = m.reg r := by
  by_cases hr : r = 0
  · subst hr
    rw [entryRam_slot_zero]
    by_cases hp : ∃ r : Reg, r ≠ 0 ∧ (l.frame, wordIdx (spillAddr m)) = (U.tf, Xv6.slot r)
    · obtain ⟨r, hr, hp⟩ := hp
      have hv := U.inj _ _ _ _ U.at_trapframe hl (Prod.mk.inj hp).1.symm
      rw [hp, saved_slot hr, (h.slot hv.symm).regs r (Prod.mk.inj hp).2]
    · rw [saved_other (fun r hr hq => hp ⟨r, hr, hq⟩), Function.update_self]
  · exact entryRam_slot hr

/-- What `usertrap` finds tells where the spill went. -/
theorem Entered.slotSafe {m' : Machine} {k : ℕ} (h : Entered U m m')
    (hc : m'.ram = entryRam U m (U.tf, k)) : SlotSafe U m k := by
  refine ⟨fun hk => ?_, fun r hr => ?_⟩
  · obtain ⟨h₃, hs⟩ := kernelWords_ne (U := U) hk
    rw [← h.kernel k hk, hc, entryRam_other h₃ hs, Function.update_self]
  · by_cases hr0 : r = 0
    · rw [hr0]
    · rw [← h.regs 0, hc, entryRam_slot_zero, hr, saved_slot hr0]

/-- A spill to a device or processor register is one store too many. -/
theorem not_entered_of_mmio {m' : Machine} (hmm : mmioBase ≤ (spillAddr m).toNat)
    (ha : (spillAddr m).toNat % 4 = 0) (hexec : exec trampoline uservec m = some m') :
    ¬ Entered U m m' := by
  intro h
  let m₁ := m.setReg 13 (spillAddr m)
  have hstore : ∀ c, step c m₁ (.sw 0 0 13) = some (m₁.setMmio (spillAddr m) (m₁.reg 0)) := fun c => by
    have hb : m₁.reg 13 + 0 = spillAddr m := by simp [m₁]
    rw [step, hb, store_mmio ha hmm]
  have hsplit : uservec = [.addi 13 13 (-4), .sw 0 0 13] ++ (uservec.drop 2).take 28 ++
    [.movi 2 0xF018, .movhi 2 0x03FF, .sw 1 0 2, .callr 14 0] := rfl
  rw [hsplit] at hexec
  obtain ⟨c, m₂, h₂, h₃⟩ := exec_append hexec
  obtain ⟨c', m₃, h₄, h₅⟩ := exec_append h₂
  have hm₃ : m₃ = m₁.setMmio (spillAddr m) (m₁.reg 0) := by
    have : exec trampoline [.addi 13 13 (-4), .sw 0 0 13] m =
        some (m₁.setMmio (spillAddr m) (m₁.reg 0)) := exec_cons rfl (exec_cons (hstore _) rfl)
    rw [h₄] at this
    exact Option.some.inj this
  have hlast : m'.writes.length = m₂.writes.length + 1 := by
    have : exec c [.movi 2 0xF018, .movhi 2 0x03FF, .sw 1 0 2, .callr 14 0] m₂ = some
        { ((m₂.setReg 2 regSatp).setMmio regSatp (m₂.reg 1)).setReg 14 (c + 4 + 4 + 4 + 4) with
          pc := m₂.reg 0 } := by
      have hsatp : ∀ c, step c (m₂.setReg 2 regSatp) (.sw 1 0 2) =
          some ((m₂.setReg 2 regSatp).setMmio regSatp (m₂.reg 1)) := fun c => by
        have hb : (m₂.setReg 2 regSatp).reg 2 + 0 = regSatp := by simp
        have hv : (m₂.setReg 2 regSatp).reg 1 = m₂.reg 1 := by simp
        rw [step, hb, hv, store_mmio (by decide) (by decide)]
      exact exec_const (v := regSatp) (by decide) (exec_cons (hsatp _) (exec_cons rfl rfl))
    rw [h₃] at this
    rw [Option.some.inj this]
    simp [setMmio]
  have hgrow := exec_writes h₅
  have hlen := congrArg List.length h.writes
  rw [hm₃] at hgrow
  simp only [setMmio, m₁, setReg_writes, List.length_cons] at hgrow hlen
  omega

/-- **Trap entry is the intended one exactly when the spill is safe.** -/
theorem uservec_safe_iff (hm : m.mapping m.satp = U.leaf) :
    (∃ m', exec trampoline uservec m = some m' ∧ Entered U m m') ↔ SpillSafe U m := by
  constructor
  · rintro ⟨m', hexec, h⟩
    obtain ⟨ha, hcase⟩ : (spillAddr m).toNat % 4 = 0 ∧ (mmioBase ≤ (spillAddr m).toNat ∨
        (spillAddr m).toNat < mmioBase ∧ ∃ l, U.leaf (vpn (spillAddr m)) = some l ∧
          l.writable = true) := by
      rw [uservec_split, exec, step, Option.bind_some, exec] at hexec
      obtain ⟨m₁, hs, -⟩ := Option.bind_eq_some_iff.1 hexec
      have hb : (m.setReg 13 (m.reg 13 + -4)).reg 13 + 0 = spillAddr m := by simp [spillAddr]
      rw [step, hb] at hs
      obtain ⟨ha, ⟨hmm, -⟩ | ⟨hlt, l, hl, hw, -⟩⟩ := store_eq_some hs
      · exact ⟨ha, .inl hmm⟩
      · exact ⟨ha, .inr ⟨hlt, l, (congrFun hm _).symm.trans hl, hw⟩⟩
    rcases hcase with hmm | ⟨hlt, l, hl, hw⟩
    · exact absurd h (not_entered_of_mmio hmm ha hexec)
    · refine ⟨ha, hlt, ⟨l, hl, hw⟩, fun hv => ?_⟩
      obtain ⟨m'', hexec', -, hc⟩ := uservec_eq hm ha hlt hl hw
      obtain rfl : m' = m'' := Option.some.inj (hexec.symm.trans hexec')
      refine h.slotSafe ?_
      rw [hv, U.at_trapframe] at hl
      rw [hc.ram, ← Option.some.inj hl]
  · intro h
    obtain ⟨l, hl, hw⟩ := h.mapped
    obtain ⟨m', hexec, -, hc⟩ := uservec_eq hm h.aligned h.below hl hw
    refine ⟨m', hexec, fun k hk => ?_, ?_, ?_, ?_, fun r => ?_⟩
    · rw [hc.ram, h.entryRam_kernel hl hk]
    · rw [hc.writes, h.entryRam_kernel hl (by decide)]
    · rw [hc.pc, h.entryRam_kernel hl (by decide)]
    · rw [hc.sp, h.entryRam_kernel hl (by decide)]
    · rw [hc.ram, h.entryRam_regs hl r]

end Entry

/-- An address space with one user page, at `0x1000`. -/
def onePage : UserSpace where
  leaf v := if v = 1 then some ⟨7, true, true, true⟩
    else if v = 0x3EFD then some ⟨5, true, true, false⟩
    else if v = 0x3EFE then some ⟨6, true, false, false⟩ else none
  tf := 5
  readable v l h := by
    split_ifs at h <;> rw [← Option.some.inj h]
  inj v w l k hv hw hf := by
    split_ifs at hv hw <;> rw [← Option.some.inj hv, ← Option.some.inj hw] at hf <;> simp at hf <;> omega
  at_trapframe := by decide
  at_trampoline := ⟨6, by decide⟩

/-- A trap from that space, with the given `r0` and stack pointer. -/
def onePageTrap (r0 sp : Word) : Machine where
  reg r := if r = 0 then r0 else if r = 13 then sp else 0
  pc := 0
  flags := 0
  ram q := if q = (5, 0) then 0x80000123 else if q = (5, 1) then 0x03EFD000 else
    if q = (5, 2) then 0x4000 else 0
  mmio _ := 0
  writes := []
  mapping _ := onePage.leaf

theorem uservec_safe_iff_onePage : ∃ m',
    exec trampoline uservec (onePageTrap 42 0x1800) = some m' ∧
      Entered onePage (onePageTrap 42 0x1800) m' := by
  refine (uservec_safe_iff (U := onePage) rfl).2 ⟨by decide, by decide, ?_, fun h => ?_⟩
  · exact ⟨⟨7, true, true, true⟩, by decide, rfl⟩
  · exact absurd h (by decide)

/-- With the stack pointer at `TRAPFRAME + 4`, the user's `r0` becomes the kernel's page table. -/
theorem uservec_steered : ∃ m',
    exec trampoline uservec (onePageTrap 0xBAD 0x03EFD004) = some m' ∧ m'.mmio regSatp = 0xBAD ∧
      ¬ Entered onePage (onePageTrap 0xBAD 0x03EFD004) m' := by
  have hrun : (exec trampoline uservec (onePageTrap 0xBAD 0x03EFD004)).map
      (fun m' => (m'.mmio regSatp, m'.ram (5, 0))) = some (0xBAD, 0xBAD) := by decide +kernel
  obtain ⟨m', hexec, hm'⟩ := Option.map_eq_some_iff.1 hrun
  refine ⟨m', hexec, (Prod.mk.inj hm').1, fun h => ?_⟩
  have := h.kernel 0 (by decide)
  rw [show m'.ram (onePage.tf, 0) = 0xBAD from (Prod.mk.inj hm').2] at this
  revert this
  decide

end Xv6
