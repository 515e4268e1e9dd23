import Xv6.Vm.PageTable
import Xv6.Proc.Kernel

/-!
# Processes and their memory

The part of `proc.c` and `sysproc.c` that makes, changes and gives back the memory of processes.
`Pcb` is `struct proc` with the fields for memory; null pointers are `none`, and the name is the
string that it holds.
-/

namespace Xv6.Vm

/-- `struct proc`. -/
structure Pcb extends Xv6.Proc where
  sz : ℕ
  pagetable : Option ℕ
  trapframe : Option ℕ
  name : List UInt8

/-- Physical memory and the process table. -/
structure Mach where
  phys : Phys
  procs : ProcId → Pcb
  nextpid : BitVec 32

/-- Programs over them. -/
abbrev SysM := Det Halt Mach

variable {α : Type}

/-- A program over physical memory. -/
def onPhys (p : PhysM α) : SysM α := fun s =>
  match p s.phys with
  | .ok (a, ph) => .ok (a, { s with phys := ph })
  | .error e => .error e

/-- A read of a process. -/
def pcb (q : ProcId) : SysM Pcb := fun s => .ok (s.procs q, s)

/-- A store to a process. -/
def setPcb (q : ProcId) (f : Pcb → Pcb) : SysM Unit := fun s =>
  .ok ((), { s with procs := Function.update s.procs q (f (s.procs q)) })

variable (K : Layout)

/-! ## The table of a process -/

/-- `proc_pagetable`, for a process with its trap frame at `tf`. -/
def procPagetable (tf : ℕ) : PhysM (Option ℕ) := do
  match ← uvmcreate with
  | none => return none
  | some pagetable => do
    if ← mappages pagetable trampoline pgsize K.trampolineStart (pteR ||| pteX) then
      if ← mappages pagetable trapframe pgsize tf (pteR ||| pteW) then return some pagetable
      else do
        uvmunmap K pagetable trampoline 1 false
        uvmfree K pagetable 0
        return none
    else do
      uvmfree K pagetable 0
      return none

/-- `proc_freepagetable`. -/
def procFreepagetable (pagetable sz : ℕ) : PhysM Unit := do
  uvmunmap K pagetable trampoline 1 false
  uvmunmap K pagetable trapframe 1 false
  uvmfree K pagetable sz

/-! ## Process slots -/

/-- A process slot as `freeproc` leaves it. -/
def Pcb.blank : Pcb :=
  { state := .unused, chan := none, killed := false, xstate := 0, pid := 0, parent := none, sz := 0,
    pagetable := none, trapframe := none, name := [] }

/-- Something is done with a pointer that is not null. -/
def ifSome (o : Option ℕ) (f : ℕ → SysM Unit) : SysM Unit :=
  match o with
  | none => return
  | some a => f a

/-- `freeproc`. -/
def freeproc (q : ProcId) : SysM Unit := do
  let p ← pcb q
  ifSome p.trapframe fun tf => onPhys (kfree K tf)
  setPcb q fun p => { p with trapframe := none }
  ifSome p.pagetable fun pagetable => onPhys (procFreepagetable K pagetable p.sz)
  setPcb q fun _ => .blank

/-- `allocpid`. -/
def allocpid : SysM (BitVec 32) := fun s => .ok (s.nextpid, { s with nextpid := s.nextpid + 1 })

/-- A free slot of the process table. -/
def findUnused : SysM (Option ProcId) := fun s =>
  .ok ((List.finRange nproc).find? fun q => decide ((s.procs q).state = .unused), s)

/-- `allocproc`. -/
def allocproc : SysM (Option ProcId) := do
  match ← findUnused with
  | none => return none
  | some q => do
    let pid ← allocpid
    setPcb q fun p => { p with pid := pid, state := .used }
    let tf ← onPhys kalloc
    setPcb q fun p => { p with trapframe := tf }
    match tf with
    | none => do
      freeproc K q
      return none
    | some tf => do
      let pagetable ← onPhys (procPagetable K tf)
      setPcb q fun p => { p with pagetable := pagetable }
      match pagetable with
      | none => do
        freeproc K q
        return none
      | some _ => return some q

/-- `sizeof(struct trapframe)`. -/
abbrev trapframeSize : ℕ := 80

/-- The offsets of `epc`, `r0`, `r1` and `r13` in a trap frame. -/
abbrev tfEpc : ℕ := 12
abbrev tfR0 : ℕ := 20
abbrev tfR1 : ℕ := 24
abbrev tfR13 : ℕ := 72

/-- `kfork` up to the copy of the trap frame; the child is `none` when it fails. -/
def forkMemory (me : ProcId) : SysM (Option ProcId) := do
  match ← allocproc K with
  | none => return none
  | some np => do
    let p ← pcb me
    let child ← pcb np
    if ← onPhys (uvmcopy K (p.pagetable.getD 0) (child.pagetable.getD 0) p.sz) then
      setPcb np fun q => { q with sz := p.sz }
      onPhys (memmove (child.trapframe.getD 0) (p.trapframe.getD 0) trapframeSize)
      onPhys (storeWord (child.trapframe.getD 0 + tfR0) 0)
      return some np
    else do
      freeproc K np
      return none

/-- The end of `kfork`, after the files. -/
def forkFinish (me np : ProcId) : SysM (BitVec 32) := do
  let p ← pcb me
  setPcb np fun q => { q with name := p.name }
  let child ← pcb np
  setPcb np fun q => { q with parent := some me }
  setPcb np fun q => { q with state := .runnable }
  return child.pid

/-! ## The size of a process -/

/-- `sz + n`, on 32-bit numbers. -/
def addInt (sz : ℕ) (n : ℤ) : ℕ := ((sz + n) % 2 ^ 32).toNat

/-- `growproc`; `false` is -1. -/
def growproc (me : ProcId) (n : ℤ) : SysM Bool := do
  let p ← pcb me
  if n > 0 then
    if addInt p.sz n > trapframe then return false
    else
      let sz ← onPhys (uvmalloc K (p.pagetable.getD 0) p.sz (addInt p.sz n) pteW)
      if sz = 0 then return false
      else
        setPcb me fun p => { p with sz := sz }
        return true
  else if n < 0 then
    let sz ← onPhys (uvmdealloc K (p.pagetable.getD 0) p.sz (addInt p.sz n))
    setPcb me fun p => { p with sz := sz }
    return true
  else
    setPcb me fun p => { p with sz := p.sz }
    return true

/-- `SBRK_EAGER`. -/
abbrev sbrkEager : ℤ := 1

/-- `sys_sbrk` with its arguments; `none` is -1. -/
def sysSbrk (me : ProcId) (n t : ℤ) : SysM (Option ℕ) := do
  let p ← pcb me
  if t = sbrkEager ∨ n < 0 then
    if ← growproc K me n then return some p.sz else return none
  else if addInt p.sz n < p.sz then return none
  else if addInt p.sz n > trapframe then return none
  else
    setPcb me fun p => { p with sz := addInt p.sz n }
    return some p.sz

end Xv6.Vm
