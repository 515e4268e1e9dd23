import Xv6.Trap.Entry

/-!
# From a trap back to the user

The way of an interrupt or a page fault through the kernel: the hardware's trap entry, `uservec`,
`usertrap` with `devintr` or `vmfault`, whatever the rest of the kernel and the other processes do
meanwhile, `prepare_return`, `userret` and `SYSRET`. The rest of the kernel may change everything
but the frames and the page table of the process (`Elsewhere`).

`prepare_return` does not restore the user's condition flags, so the trap is transparent only to a
user whose flags are zero (`trap_transparent_iff`).
-/

namespace Xv6

open Machine

/-- `CAUSE_IRQ`. -/
def causeIrq : Word := 6#32

/-- `CAUSE_LPGFAULT`. -/
def causeLpgfault : Word := 8#32

/-- `CAUSE_SPGFAULT`. -/
def causeSpgfault : Word := 9#32

/-- What the kernel keeps for a process with its user address space. -/
structure ProcSpace where
  space : UserSpace
  /-- `MAKE_SATP(p->pagetable)`. -/
  userSatp : Word
  /-- The kernel's `SATP`. -/
  kernelSatp : Word
  /-- `p->kstack + PGSIZE`. -/
  kstackTop : Word
  /-- The address of `usertrap`. -/
  usertrap : Word
  /-- `p->sz`. -/
  sz : ℕ

/-! ## The steps -/

/-- The hardware on a trap: the program counter, the flags, the cause and the faulting address go to
the supervisor registers, and the general registers stay. -/
def trapEntry (cause badaddr : Word) (m : Machine) : Machine :=
  { m with
    pc := trampoline
    mmio := Function.update (Function.update (Function.update (Function.update m.mmio regEpc m.pc)
      regEflags m.flags) regCause cause) regBadaddr badaddr }

variable (P : ProcSpace)

/-- `usertrap` runs: in the kernel's address space, on the process's kernel stack, with the hart's
number in `r11`. -/
structure InUsertrap (m : Machine) : Prop where
  pc : m.pc = P.usertrap
  satp : m.satp = P.kernelSatp
  sp : m.reg 13 = P.kstackTop
  hartid : m.reg 11 = 0

/-- `vmfault` maps the page `v` to a frame that is not in use. -/
structure MapsPage (U U' : UserSpace) (v f : ℕ) : Prop where
  unmapped : U.leaf v = none
  leaf : U'.leaf = Function.update U.leaf v (some ⟨f, true, true, true⟩)
  tf : U'.tf = U.tf

/-- The memory and the page table after `vmfault`. -/
def vmfaultPage (U' : UserSpace) (f : ℕ) (m : Machine) : Machine :=
  { m with
    ram := fun q => if q.1 = f then 0 else m.ram q
    mapping := Function.update m.mapping P.userSatp U'.leaf }

/-- The rest of the kernel and the other processes, with any number of context switches: everything
may change but the frames and the page table of the process. -/
structure Elsewhere (U : UserSpace) (m m' : Machine) : Prop where
  ram : ∀ v l i, U.leaf v = some l → m'.ram (l.frame, i) = m.ram (l.frame, i)
  mapping : m'.mapping P.userSatp = U.leaf

/-- `usertrap` of a process that is not killed, up to the call of `prepare_return`, for a device
interrupt or a page fault that `vmfault` resolves. -/
inductive Handled (m : Machine) : UserSpace → Machine → Prop
  | irq {m' : Machine} (hc : m.mmio regCause = causeIrq) (h : Elsewhere P P.space m m') :
      Handled m P.space m'
  | fault {m' : Machine} {U' : UserSpace} {f : ℕ}
      (hc : m.mmio regCause = causeSpgfault ∨ m.mmio regCause = causeLpgfault)
      (hsz : (m.mmio regBadaddr).toNat < P.sz)
      (hmap : MapsPage P.space U' (vpn (m.mmio regBadaddr)) f)
      (h : Elsewhere P U' (vmfaultPage P U' f m) m') : Handled m U' m'

/-- `prepare_return`. -/
def prepareReturn (m : Machine) : Machine :=
  let m := m.setRam (P.space.tf, 0) m.satp
  let m := m.setRam (P.space.tf, 1) P.kstackTop
  let m := m.setRam (P.space.tf, 2) P.usertrap
  let m := m.setRam (P.space.tf, 4) 0
  let m := m.setMmio regEpc (m.ram (P.space.tf, 3))
  let m := m.setMmio regEflags 0
  m.setMmio regEstatus statusIe

/-- The return of `usertrap` into `userret`, with the user's `SATP` in `r0`. -/
def resume (m : Machine) : Option Machine :=
  exec userretAddr userret ((prepareReturn P m).setReg 0 P.userSatp)

/-! ## What the user sees -/

/-- The trapframe is as the last `prepare_return` left it, and the user's page table is active. -/
structure UserRuns (m : Machine) : Prop where
  satp : m.satp = P.userSatp
  mapping : m.mapping P.userSatp = P.space.leaf
  kernelSatp : m.ram (P.space.tf, 0) = P.kernelSatp
  kernelSp : m.ram (P.space.tf, 1) = P.kstackTop
  kernelTrap : m.ram (P.space.tf, 2) = P.usertrap
  kernelHartid : m.ram (P.space.tf, 4) = 0

/-- The user goes on as before: the registers, the program counter and the flags are the same, and
so is the memory from the stack pointer up, but for new pages, which are zero. -/
structure Resumed (U' : UserSpace) (m m' : Machine) : Prop where
  reg : m'.reg = m.reg
  pc : m'.pc = m.pc
  flags : m'.flags = m.flags
  space : m'.mapping m'.satp = U'.leaf
  memory : ∀ a l, a.toNat % 4 = 0 → (m.reg 13).toNat ≤ a.toNat → vpn a ≠ trapframePage →
    P.space.leaf (vpn a) = some l → m'.ram (l.frame, wordIdx a) = m.ram (l.frame, wordIdx a)
  fresh : ∀ v l, P.space.leaf v = none → U'.leaf v = some l → ∀ i, m'.ram (l.frame, i) = 0

/-- The trap is transparent: `usertrap` is entered, and however it and the rest of the kernel go on,
the user resumes as before. -/
def Transparent (cause badaddr : Word) (m : Machine) : Prop :=
  ∃ m₁, exec trampoline uservec (trapEntry cause badaddr m) = some m₁ ∧ InUsertrap P m₁ ∧
    ∀ U' m₂, Handled P m₁ U' m₂ → ∃ m₃, resume P m₂ = some m₃ ∧ Resumed P U' m m₃

/-- A trap that `usertrap` resolves. -/
def Resolvable (cause badaddr : Word) : Prop :=
  cause = causeIrq ∨ (cause = causeSpgfault ∨ cause = causeLpgfault) ∧ badaddr.toNat < P.sz ∧
    ∃ U' f, MapsPage P.space U' (vpn badaddr) f

/-! ## `userret` -/

variable {P} {U : UserSpace} {m m' : Machine} {cause badaddr : Word}

theorem loaded_of_ne {tf : ℕ} {ram : ℕ × ℕ → Word} {l : List (Reg × ℕ)} {reg : Reg → Word} {r : Reg}
    (h : ∀ e ∈ l, r ≠ e.1) : loaded tf ram l reg r = reg r := by
  induction l generalizing reg with
  | nil => rfl
  | cons e l ih =>
    rw [loaded, ih fun e he => h e (List.mem_cons_of_mem _ he),
      Function.update_of_ne (h e List.mem_cons_self)]

theorem loaded_of_mem {tf : ℕ} {ram : ℕ × ℕ → Word} {l : List (Reg × ℕ)} {reg : Reg → Word}
    (hl : l.Pairwise fun e e' => e.1 ≠ e'.1) {e : Reg × ℕ} (he : e ∈ l) :
    loaded tf ram l reg e.1 = ram (tf, e.2) := by
  induction l generalizing reg with
  | nil => cases he
  | cons d l ih =>
    rw [List.pairwise_cons] at hl
    rcases List.mem_cons.1 he with rfl | he
    · rw [loaded, loaded_of_ne fun e' he' => hl.1 e' he', Function.update_self]
    · exact ih hl.2 he

/-- The registers that `userret` loads while `r1` is the base. -/
def loadedRegs : List (Reg × ℕ) :=
  [(0, 5), (2, 7), (3, 8), (4, 9), (5, 10), (6, 11), (7, 12), (8, 13), (9, 14), (10, 15), (11, 16),
   (12, 17), (13, 18), (14, 19)]

theorem userret_split : userret = .movi 1 0xD000 :: .movhi 1 0x03EF :: .movi 2 0xF018 ::
    .movhi 2 0x03FF :: .sw 0 0 2 :: (loads 1 loadedRegs ++ [.lw 1 24 1, .sysret]) := rfl

/-- **The effect of `userret`**: the user's page table and registers, and the program counter and
flags of the supervisor registers. -/
theorem userret_eq (hm : m.mapping (m.reg 0) = U.leaf) (c : Word) :
    ∃ m', exec c userret m = some m' ∧ (∀ r, m'.reg r = m.ram (U.tf, slot r)) ∧
      m'.pc = m.mmio regEpc ∧ m'.flags = m.mmio regEflags ∧ m'.ram = m.ram ∧
      m'.mapping = m.mapping ∧ m'.satp = m.reg 0 := by
  let m₁ := (m.setReg 1 trapframe).setReg 2 regSatp
  let m₂ := m₁.setMmio regSatp (m.reg 0)
  let m₃ : Machine := { m₂ with reg := loaded U.tf m₂.ram loadedRegs m₂.reg }
  let m₄ := m₃.setReg 1 (m₃.ram (U.tf, 6))
  have hsatp : m₂.satp = m.reg 0 := by simp [m₂, setMmio, satp]
  have hmap : m₂.mapping m₂.satp = U.leaf := by
    rw [hsatp]
    exact hm
  have h₂ : ∀ c, step c m₁ (.sw 0 0 2) = some m₂ := fun c => by
    have hb : m₁.reg 2 + 0 = regSatp := by simp [m₁]
    have hv : m₁.reg 0 = m.reg 0 := by simp [m₁]
    rw [step, hb, hv, store_mmio (by decide) (by decide)]
  have hbase : m₃.reg 1 = trapframe := by
    have : m₃.reg 1 = m₂.reg 1 := loaded_of_ne (by decide)
    rw [this]
    simp [m₂, m₁, setMmio]
  have h₄ : ∀ c, step c m₃ (.lw 1 24 1) = some m₄ := fun c =>
    step_lw_trapframe (U := U) (m := m₃) hmap hbase 6 (by omega) rfl
  have hexec : exec c userret m =
      some { m₄ with pc := m₄.mmio regEpc, flags := m₄.mmio regEflags } := by
    rw [userret_split]
    refine exec_const (v := trapframe) (by decide) (exec_const (v := regSatp) (by decide)
      (exec_cons (h₂ _) (exec_loads (U := U) (m := m₂) hmap ?_ (by decide)
        (exec_cons (h₄ _) (exec_cons rfl rfl)))))
    simp [m₂, m₁, setMmio]
  refine ⟨_, hexec, fun r => ?_, ?_, ?_, rfl, rfl, hsatp⟩
  · by_cases hr : r = 1
    · subst hr
      simp [m₄, m₃, m₂, m₁, setMmio, slot]
    · have hmem : (r, slot r) ∈ loadedRegs := by
        revert r
        decide
      have : loaded U.tf m₂.ram loadedRegs m₂.reg r = m₂.ram (U.tf, slot r) :=
        loaded_of_mem (by decide) hmem
      simp only [m₄, m₃, setReg_reg, Function.update_of_ne hr, this]
      rfl
  · have : regEpc ≠ regSatp := by decide
    simp [m₄, m₃, m₂, m₁, setMmio, this]
  · have : regEflags ≠ regSatp := by decide
    simp [m₄, m₃, m₂, m₁, setMmio, this]

/-! ## The round trip -/

/-- The memory that `prepare_return` leaves alone. -/
theorem prepareReturn_ram {q : ℕ × ℕ} (hq : ∀ k ∈ kernelWords, q ≠ (P.space.tf, k)) :
    (prepareReturn P m).ram q = m.ram q := by
  have h : ∀ k ∈ kernelWords, q ≠ (P.space.tf, k) := hq
  simp only [prepareReturn, setMmio, setRam_ram]
  rw [Function.update_of_ne (h 4 (by decide)), Function.update_of_ne (h 2 (by decide)),
    Function.update_of_ne (h 1 (by decide)), Function.update_of_ne (h 0 (by decide))]

theorem prepareReturn_mmio : (prepareReturn P m).mmio regEpc = m.ram (P.space.tf, 3) ∧
    (prepareReturn P m).mmio regEflags = 0 ∧ (prepareReturn P m).mapping = m.mapping := by
  have h₁ : regEpc ≠ regEflags := by decide
  have h₂ : regEpc ≠ regEstatus := by decide
  have h₃ : regEflags ≠ regEstatus := by decide
  simp [prepareReturn, setMmio, h₁, h₂, h₃]

/-- What the process finds of its memory and page table after its trap is handled. -/
structure AfterTrap (P : ProcSpace) (U' : UserSpace) (m m' : Machine) : Prop where
  tf : U'.tf = P.space.tf
  mapping : m'.mapping P.userSatp = U'.leaf
  ram : ∀ v l i, P.space.leaf v = some l → m'.ram (l.frame, i) = m.ram (l.frame, i)
  fresh : ∀ v l, P.space.leaf v = none → U'.leaf v = some l → ∀ i, m'.ram (l.frame, i) = 0

theorem Handled.after {U' : UserSpace} (h : Handled P m U' m') : AfterTrap P U' m m' := by
  cases h with
  | irq hc h =>
    refine ⟨rfl, h.mapping, h.ram, fun v l hn hs => ?_⟩
    rw [hn] at hs
    cases hs
  | @fault _ _ f hc hsz hmap h =>
    have hnew : U'.leaf (vpn (m.mmio regBadaddr)) = some ⟨f, true, true, true⟩ := by
      rw [hmap.leaf, Function.update_self]
    refine ⟨hmap.tf, h.mapping, fun v l i hl => ?_, fun v l hn hs i => ?_⟩
    · have hne : v ≠ vpn (m.mmio regBadaddr) := by
        rintro rfl
        rw [hmap.unmapped] at hl
        cases hl
      have hl' : U'.leaf v = some l := by rw [hmap.leaf, Function.update_of_ne hne, hl]
      have hf : l.frame ≠ f := fun he => hne (U'.inj _ _ _ _ hl' hnew he)
      rw [h.ram v l i hl']
      exact if_neg hf
    · have hv : v = vpn (m.mmio regBadaddr) := by
        by_contra hne
        rw [hmap.leaf, Function.update_of_ne hne, hn] at hs
        cases hs
      rw [h.ram v l i hs]
      subst hv
      rw [hnew] at hs
      rw [← Option.some.inj hs]
      exact if_pos rfl

/-- **The return to the user**, in terms of the trapframe. -/
theorem resume_eq {U' : UserSpace} (h : AfterTrap P U' m m') : ∃ m₃, resume P m' = some m₃ ∧
    (∀ r, m₃.reg r = m.ram (P.space.tf, slot r)) ∧ m₃.pc = m.ram (P.space.tf, 3) ∧ m₃.flags = 0 ∧
    m₃.mapping m₃.satp = U'.leaf ∧ ∀ q, q.1 ≠ P.space.tf → m₃.ram q = m'.ram q := by
  obtain ⟨hepc, hflags, hmap⟩ := prepareReturn_mmio (P := P) (m := m')
  obtain ⟨m₃, hexec, hreg, hpc, hfl, hram, hmapping, hsatp⟩ := userret_eq (U := U')
    (m := (prepareReturn P m').setReg 0 P.userSatp) (by simp [hmap, h.mapping]) userretAddr
  have htf : ∀ i, m'.ram (P.space.tf, i) = m.ram (P.space.tf, i) := fun i =>
    h.ram _ _ i P.space.at_trapframe
  refine ⟨m₃, hexec, fun r => ?_, ?_, ?_, ?_, fun q hq => ?_⟩
  · rw [hreg r, h.tf, setReg_ram, prepareReturn_ram, htf]
    exact fun k hk => ((kernelWords_ne hk).2 r).symm
  · rw [hpc, setReg_mmio, hepc, htf]
  · rw [hfl, setReg_mmio, hflags]
  · rw [hmapping, hsatp, setReg_mapping, hmap, setReg_reg, Function.update_self]
    exact h.mapping
  · rw [hram, setReg_ram, prepareReturn_ram]
    rintro k - rfl
    exact hq rfl

theorem trapEntry_satp : (trapEntry cause badaddr m).satp = m.satp := by
  have h₁ : regSatp ≠ regEpc := by decide
  have h₂ : regSatp ≠ regEflags := by decide
  have h₃ : regSatp ≠ regCause := by decide
  have h₄ : regSatp ≠ regBadaddr := by decide
  simp [trapEntry, satp, h₁, h₂, h₃, h₄]

theorem trapEntry_epc : (trapEntry cause badaddr m).mmio regEpc = m.pc := by
  have h₂ : regEpc ≠ regEflags := by decide
  have h₃ : regEpc ≠ regCause := by decide
  have h₄ : regEpc ≠ regBadaddr := by decide
  simp [trapEntry, h₂, h₃, h₄]

/-- The word below the stack pointer is not at or above it. -/
theorem spillAddr_lt (h : (spillAddr m).toNat < mmioBase) :
    (spillAddr m).toNat + 4 = (m.reg 13).toNat := by
  have hadd : spillAddr m + 4 = m.reg 13 := by simp [spillAddr, BitVec.add_assoc]
  have hfour : (4 : Word).toNat = 4 := rfl
  rw [← hadd, BitVec.toNat_add, hfour]
  simp only [mmioBase] at h
  omega

/-- Two aligned addresses with the same page and word are equal. -/
theorem toNat_eq_of_word {a c : Word} (ha : a.toNat % 4 = 0) (hc : c.toNat % 4 = 0)
    (hv : vpn a = vpn c) (hw : wordIdx a = wordIdx c) : a.toNat = c.toNat := by
  simp only [vpn, wordIdx] at hv hw
  omega

/-- The memory from the stack pointer up does not see the spill. -/
theorem entryRam_above {l k : Leaf} {a : Word} (ha : (spillAddr m).toNat % 4 = 0)
    (hlt : (spillAddr m).toNat < mmioBase) (hl : U.leaf (vpn (spillAddr m)) = some l)
    (hc : a.toNat % 4 = 0) (hge : (m.reg 13).toNat ≤ a.toNat) (hv : vpn a ≠ trapframePage)
    (hk : U.leaf (vpn a) = some k) :
    entryRam U m (l.frame, wordIdx (spillAddr m)) (k.frame, wordIdx a) =
      m.ram (k.frame, wordIdx a) := by
  have htf : k.frame ≠ U.tf := fun he => hv (U.inj _ _ _ _ hk U.at_trapframe he)
  rw [entryRam_other (fun h => htf (Prod.mk.inj h).1) fun r h => htf (Prod.mk.inj h).1,
    Function.update_of_ne]
  intro h
  have hvpn := U.inj _ _ _ _ hk hl (Prod.mk.inj h).1
  have := toNat_eq_of_word hc ha hvpn (Prod.mk.inj h).2
  have := spillAddr_lt hlt
  omega

/-- Some way through the kernel exists for a trap that `usertrap` resolves. -/
theorem Resolvable.handled (h : Resolvable P cause badaddr) (hm : m.mapping P.userSatp = P.space.leaf)
    (hc : m.mmio regCause = cause) (hb : m.mmio regBadaddr = badaddr) :
    ∃ U' m', Handled P m U' m' := by
  rcases h with hirq | ⟨hpf, hsz, U', f, hmap⟩
  · exact ⟨_, m, .irq (hc.trans hirq) ⟨fun _ _ _ _ => rfl, hm⟩⟩
  · refine ⟨U', vmfaultPage P U' f m, .fault (f := f) ?_ ?_ ?_ ⟨fun _ _ _ _ => rfl, ?_⟩⟩
    · rwa [hc]
    · rwa [hb]
    · rwa [hb]
    · exact Function.update_self _ _ _

/-- A transparent trap has entered `usertrap` as intended. -/
theorem InUsertrap.entered {l : Leaf} {m₁ : Machine} (hrun : UserRuns P m) (hin : InUsertrap P m₁)
    (hregs : ∀ r, m₁.ram (P.space.tf, slot r) = m.reg r)
    (hc : Called P.space (entryRam P.space (trapEntry cause badaddr m)
      (l.frame, wordIdx (spillAddr m))) (trapEntry cause badaddr m) m₁) :
    Entered P.space (trapEntry cause badaddr m) m₁ := by
  have hsatp : m₁.satp = m₁.ram (P.space.tf, 0) := by
    rw [Machine.satp, hc.mmio, Function.update_self, hc.ram]
  have h₀ : m₁.ram (P.space.tf, 0) = m.ram (P.space.tf, 0) := by
    rw [← hsatp, hin.satp, hrun.kernelSatp]
  have h₁ : m₁.ram (P.space.tf, 1) = m.ram (P.space.tf, 1) := by
    rw [hc.ram, ← hc.sp, hin.sp, hrun.kernelSp]
  have h₂ : m₁.ram (P.space.tf, 2) = m.ram (P.space.tf, 2) := by
    rw [hc.ram, ← hc.pc, hin.pc, hrun.kernelTrap]
  have h₄ : m₁.ram (P.space.tf, 4) = m.ram (P.space.tf, 4) := by
    rw [hc.ram, ← hc.hartid, hin.hartid, hrun.kernelHartid]
  refine ⟨fun k hk => ?_, ?_, ?_, ?_, hregs⟩
  · have hk' : k = 0 ∨ k = 1 ∨ k = 2 ∨ k = 4 := by simpa [kernelWords] using hk
    rcases hk' with rfl | rfl | rfl | rfl
    · exact h₀
    · exact h₁
    · exact h₂
    · exact h₄
  · rw [hc.writes, ← hc.ram, h₀]
    rfl
  · rw [hc.pc, ← hc.ram, h₂]
    rfl
  · rw [hc.sp, ← hc.ram, h₁]
    rfl

section RoundTrip

variable {l : Leaf} (hrun : UserRuns P m) (ha : (spillAddr m).toNat % 4 = 0)
  (hlt : (spillAddr m).toNat < mmioBase) (hl : P.space.leaf (vpn (spillAddr m)) = some l)
  (hw : l.writable = true)

include hrun ha hlt hl hw

/-- What `usertrap` finds after the hardware's trap entry and `uservec`. -/
theorem trap_called (cause badaddr : Word) : ∃ m₁,
    exec trampoline uservec (trapEntry cause badaddr m) = some m₁ ∧
    Called P.space (entryRam P.space (trapEntry cause badaddr m) (l.frame, wordIdx (spillAddr m)))
      (trapEntry cause badaddr m) m₁ ∧ m₁.mmio regCause = cause ∧ m₁.mmio regBadaddr = badaddr ∧
    m₁.mapping P.userSatp = P.space.leaf := by
  have hm : (trapEntry cause badaddr m).mapping (trapEntry cause badaddr m).satp = P.space.leaf := by
    rw [trapEntry_satp, hrun.satp]
    exact hrun.mapping
  obtain ⟨m₁, hexec, -, hc⟩ := uservec_eq (U := P.space) hm ha hlt hl hw
  have h₁ : regCause ≠ regSatp := by decide
  have h₂ : regCause ≠ regBadaddr := by decide
  have h₃ : regBadaddr ≠ regSatp := by decide
  refine ⟨m₁, hexec, hc, ?_, ?_, ?_⟩
  · rw [hc.mmio, Function.update_of_ne h₁]
    simp [trapEntry, h₂]
  · rw [hc.mmio, Function.update_of_ne h₃]
    simp [trapEntry]
  · rw [hc.mapping]
    exact hrun.mapping

/-- `prepare_return` gives the user zero flags, and the slots of the trapframe for registers. -/
theorem Transparent.inv (hres : Resolvable P cause badaddr) (h : Transparent P cause badaddr m) :
    m.flags = 0 ∧ ∃ m₁, InUsertrap P m₁ ∧ (∀ r, m₁.ram (P.space.tf, slot r) = m.reg r) ∧
      Called P.space (entryRam P.space (trapEntry cause badaddr m) (l.frame, wordIdx (spillAddr m)))
        (trapEntry cause badaddr m) m₁ := by
  obtain ⟨m₁', hexec', hin, hback⟩ := h
  obtain ⟨m₁, hexec, hc, hcause, hbad, hmap⟩ := trap_called hrun ha hlt hl hw cause badaddr
  obtain rfl : m₁ = m₁' := Option.some.inj (hexec.symm.trans hexec')
  obtain ⟨U', m₂, hh⟩ := hres.handled hmap hcause hbad
  obtain ⟨m₃, hres₃, hsame⟩ := hback U' m₂ hh
  obtain ⟨m₃', hres₃', hreg, -, hfl, -, -⟩ := resume_eq hh.after
  obtain rfl : m₃ = m₃' := Option.some.inj (hres₃.symm.trans hres₃')
  refine ⟨by rw [← hsame.flags, hfl], m₁, hin, fun r => ?_, hc⟩
  rw [← hreg r, hsame.reg]

/-- With zero flags and a safe spill the user resumes as before. -/
theorem transparent_of_safe (hflags : m.flags = 0)
    (hsafe : SpillSafe P.space (trapEntry cause badaddr m)) : Transparent P cause badaddr m := by
  obtain ⟨m₁, hexec, hc, -, -, -⟩ := trap_called hrun ha hlt hl hw cause badaddr
  have hkernel : ∀ k ∈ kernelWords, m₁.ram (P.space.tf, k) = m.ram (P.space.tf, k) := fun k hk => by
    rw [hc.ram]
    exact hsafe.entryRam_kernel hl hk
  refine ⟨m₁, hexec, ⟨?_, ?_, ?_, ?_⟩, fun U' m₂ hh => ?_⟩
  · rw [hc.pc, ← hc.ram, hkernel 2 (by decide), hrun.kernelTrap]
  · rw [satp, hc.mmio, Function.update_self, ← hc.ram, hkernel 0 (by decide), hrun.kernelSatp]
  · rw [hc.sp, ← hc.ram, hkernel 1 (by decide), hrun.kernelSp]
  · rw [hc.hartid, ← hc.ram, hkernel 4 (by decide), hrun.kernelHartid]
  obtain ⟨m₃, hres₃, hreg, hpc, hfl, hspace, hram⟩ := resume_eq hh.after
  refine ⟨m₃, hres₃, ?_, ?_, by rw [hfl, hflags], hspace, fun a k hac hge hv hk => ?_,
    fun v k hn hs i => ?_⟩
  · funext r
    rw [hreg r, hc.ram]
    exact hsafe.entryRam_regs hl r
  · rw [hpc, hc.ram]
    exact (Function.update_self _ _ _).trans trapEntry_epc
  · have htf : k.frame ≠ P.space.tf := fun he => hv (P.space.inj _ _ _ _ hk P.space.at_trapframe he)
    rw [hram _ htf, hh.after.ram _ _ _ hk, hc.ram]
    exact entryRam_above (m := trapEntry cause badaddr m) ha hlt hl hac hge hv hk
  · have htf : k.frame ≠ P.space.tf := by
      rw [← hh.after.tf]
      intro he
      have := U'.inj _ _ _ _ hs U'.at_trapframe he
      rw [this, P.space.at_trapframe] at hn
      cases hn
    rw [hram _ htf]
    exact hh.after.fresh v k hn hs i

end RoundTrip

/-- **A trap is transparent exactly when the user's flags are zero**, and the spill does no harm in
case it goes to the trapframe. -/
theorem trap_transparent_iff (hrun : UserRuns P m) (hres : Resolvable P cause badaddr) {l : Leaf}
    (ha : (spillAddr m).toNat % 4 = 0) (hlt : (spillAddr m).toNat < mmioBase)
    (hl : P.space.leaf (vpn (spillAddr m)) = some l) (hw : l.writable = true) :
    Transparent P cause badaddr m ↔ m.flags = 0 ∧
      (vpn (spillAddr m) = trapframePage → SlotSafe P.space m (wordIdx (spillAddr m))) := by
  constructor
  · intro h
    obtain ⟨hflags, m₁, hin, hregs, hc⟩ := Transparent.inv hrun ha hlt hl hw hres h
    have hent := hin.entered hrun hregs hc
    refine ⟨hflags, fun hv => ?_⟩
    have hsafe : SlotSafe P.space (trapEntry cause badaddr m) (wordIdx (spillAddr m)) := by
      refine hent.slotSafe ?_
      rw [hv, P.space.at_trapframe] at hl
      rw [hc.ram, ← Option.some.inj hl]
    exact ⟨hsafe.kernel, hsafe.regs⟩
  · rintro ⟨hflags, hslot⟩
    exact transparent_of_safe hrun ha hlt hl hw hflags
      ⟨ha, hlt, ⟨l, hl, hw⟩, fun hv => ⟨(hslot hv).kernel, (hslot hv).regs⟩⟩

/-- A process in the address space with one user page. -/
def onePageProc : ProcSpace := ⟨onePage, 0x80000200, 0x80000123, 0x03EFD000, 0x4000, 0x2000⟩

/-- It runs with its stack pointer at `0x1800` and the given flags. -/
def onePageUser (flags : Word) : Machine :=
  { onePageTrap 42 0x1800 with
    pc := 0x1010
    flags := flags
    mmio := fun _ => 0x80000200 }

theorem onePageUser_runs (flags : Word) : UserRuns onePageProc (onePageUser flags) :=
  ⟨rfl, rfl, by simp [onePageUser, onePageTrap, onePageProc, onePage],
    by simp [onePageUser, onePageTrap, onePageProc, onePage],
    by simp [onePageUser, onePageTrap, onePageProc, onePage],
    by simp [onePageUser, onePageTrap, onePageProc, onePage]⟩

theorem trap_transparent_iff_onePage : Transparent onePageProc causeIrq 0 (onePageUser 0) :=
  (trap_transparent_iff (onePageUser_runs 0) (.inl rfl) (l := ⟨7, true, true, true⟩) (by decide)
    (by decide) (by decide) rfl).2 ⟨rfl, fun h => absurd h (by decide)⟩

/-- An interrupt clears the flags of a user who has just compared. -/
theorem interrupt_clears_flags : ¬ Transparent onePageProc causeIrq 0 (onePageUser 1) := by
  intro h
  obtain ⟨hflags, -⟩ := Transparent.inv (onePageUser_runs 1) (l := ⟨7, true, true, true⟩) (by decide)
    (by decide) (by decide) rfl (.inl rfl) h
  revert hflags
  decide

end Xv6
