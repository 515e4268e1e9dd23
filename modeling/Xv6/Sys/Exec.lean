import Xv6.Sys.World

/-!
# `exec`

`exec.c` over files and memory. The inode is read while the new address space is made; what follows
the release of the inode works on memory alone (`execTail`). The strings of `argv` are given as lists
of bytes without their NUL, and a result of `false` or `none` is a `goto bad`.
-/

namespace Xv6.Vm

open Conc Eff

/-- `MAXARG`. -/
abbrev maxarg : ℕ := 32

/-- `USERSTACK`. -/
abbrev userstack : ℕ := 1

/-- `flags2perm`. -/
def flags2perm (flags : ℕ) : ℕ :=
  (if flags.testBit 0 then pteX else 0) ||| (if flags.testBit 1 then pteW else 0)

/-- `a - n`, on 32-bit numbers. -/
def sub32 (a n : ℕ) : ℕ := (a + 2 ^ 32 - n) % 2 ^ 32

/-! ## The segments -/

/-- The loop of `loadseg` with `i` bytes of `sz` read. -/
def loadseg (pagetable va : ℕ) (ip : InodeId) (offset sz : ℕ) : ℕ → ℕ → Kern Bool
  | 0, _ => onMach (throw .spin)
  | k + 1, i =>
    if i < sz then do
      let pa ← onMach (onPhys (walkaddr pagetable ((va + i) % 2 ^ 32)))
      if pa = 0 then onMach (throw (.panic "loadseg: address should exist"))
      else
        let n := min (pgsize - (va + i) % 2 ^ 32 % pgsize) (sz - i)
        let r ← onFs (Fs.readi ip .kernel ((offset + i) % 2 ^ 32) n)
        -- what has been read is there even when the read falls short
        onMach (onPhys (poke (pa + (va + i) % 2 ^ 32 % pgsize) r.2))
        if r.1 ≠ n then return false
        else loadseg pagetable va ip offset sz k (i + n)
    else return true

/-- The loop of `kexec` over program headers, with the size so far. -/
def loadSegments (K : Layout) (pagetable : ℕ) (ip : InodeId) (phoff : ℕ) :
    List ℕ → ℕ → Kern (Bool × ℕ)
  | [], sz => return (true, sz)
  | i :: rest, sz => do
    let r ← onFs (Fs.readi ip .kernel ((phoff + Fs.proghdrSize * i) % 2 ^ 32) Fs.proghdrSize)
    if r.1 ≠ Fs.proghdrSize then return (false, sz)
    else
      let type := Fs.field r.2 0 4
      let off := Fs.field r.2 4 4
      let vaddr := Fs.field r.2 8 4
      let filesz := Fs.field r.2 16 4
      let memsz := Fs.field r.2 20 4
      let flags := Fs.field r.2 24 4
      if type ≠ Fs.elfProgLoad then loadSegments K pagetable ip phoff rest sz
      else if memsz < filesz then return (false, sz)
      else if (vaddr + memsz) % 2 ^ 32 < vaddr then return (false, sz)
      else
        let sz1 ← onMach (onPhys (uvmalloc K pagetable sz ((vaddr + memsz) % 2 ^ 32) (flags2perm flags)))
        if sz1 = 0 then return (false, sz)
        else if ← loadseg pagetable vaddr ip off filesz turns 0 then
          loadSegments K pagetable ip phoff rest sz1
        else return (false, sz1)

/-- What `kexec` has when it is done with the inode, well or not. -/
structure Loaded where
  ok : Bool
  pagetable : Option ℕ
  sz : ℕ
  entry : ℕ

/-- `kexec` with the inode locked; the trap frame of the process is at `tf`. -/
def loadElf (K : Layout) (tf : ℕ) (ip : InodeId) : Kern Loaded := do
  let r ← onFs (Fs.readi ip .kernel 0 Fs.elfhdrSize)
  if r.1 ≠ Fs.elfhdrSize then return ⟨false, none, 0, 0⟩
  else if Fs.field r.2 0 4 ≠ Fs.elfMagic then return ⟨false, none, 0, 0⟩
  else
    match ← onMach (onPhys (procPagetable K tf)) with
    | none => return ⟨false, none, 0, 0⟩
    | some pagetable => do
      let l ← loadSegments K pagetable ip (Fs.field r.2 28 4) (List.range' 0 (Fs.field r.2 44 2)) 0
      return ⟨l.1, some pagetable, l.2, Fs.field r.2 24 4⟩

/-! ## The stack -/

variable (K : Layout) (self : Self)

/-- `ustack[argc] = v`; `ustack` holds `MAXARG` words. -/
def pushWord (ustack : List ℕ) (v : ℕ) : PhysM (List ℕ) :=
  if ustack.length < maxarg then return ustack ++ [v] else throw .bounds

/-- The loop of `kexec` over the arguments; `ustack` has a word for each of those before. -/
def pushArgs (pagetable stackbase : ℕ) :
    List (List UInt8) → ℕ → List ℕ → PhysM (Option (ℕ × List ℕ))
  | [], sp, ustack => return some (sp, ustack)
  | arg :: rest, sp, ustack =>
    if ustack.length ≥ maxarg then return none
    else
      let sp := sub32 sp (arg.length + 1)
      let sp := sub32 sp (sp % 16)
      if sp < stackbase then return none
      else do
        if ← copyout K self pagetable sp (arg ++ [0]) then
          let ustack ← pushWord ustack sp
          pushArgs pagetable stackbase rest sp ustack
        else return none

/-- The bytes of a word. -/
def wordBytes (v : ℕ) : List UInt8 :=
  [UInt8.ofNat (v % 256), UInt8.ofNat (v / 256 % 256), UInt8.ofNat (v / 65536 % 256),
    UInt8.ofNat (v / 16777216 % 256)]

/-- The arguments and the array of pointers to them are copied to the stack, whose end is `sz`. -/
def pushStack (pagetable : ℕ) (argv : List (List UInt8)) (sz : ℕ) : PhysM (Option ℕ) := do
  let stackbase := sub32 sz (userstack * pgsize)
  match ← pushArgs K self pagetable stackbase argv sz [] with
  | none => return none
  | some (sp, ustack) => do
    let ustack ← pushWord ustack 0
    let sp := sub32 sp (4 * (argv.length + 1))
    let sp := sub32 sp (sp % 16)
    if sp < stackbase then return none
    else if ← copyout K self pagetable sp (ustack.flatMap wordBytes) then return some sp
    else return none

/-- The stack of a new image of size `sz`: the size with it, and the stack pointer. -/
def buildStack (pagetable : ℕ) (argv : List (List UInt8)) (sz : ℕ) : PhysM (ℕ × Option ℕ) := do
  let sz := pgroundup sz
  let sz1 ← uvmalloc K pagetable sz ((sz + (userstack + 1) * pgsize) % 2 ^ 32) pteW
  if sz1 = 0 then return (sz, none)
  else do
    uvmclear pagetable (sub32 sz1 ((userstack + 1) * pgsize))
    let sp ← pushStack K self pagetable argv sz1
    return (sz1, sp)

/-! ## The new image -/

/-- What follows the last slash of a path; `last` is where the loop has got to. -/
def lastName : Fs.Path → Fs.Path → List UInt8
  | last, [] => last
  | last, c :: s => if c = Fs.slash then lastName s s else lastName last s

/-- The process gets the new image, and the old one is freed. -/
def execCommit (me : ProcId) (path : Fs.Path) (pagetable sz sp entry : ℕ) : SysM Unit := do
  let p ← pcb me
  let tf := p.trapframe.getD 0
  onPhys (storeWord (tf + tfR1) sp)
  setPcb me fun p => { p with name := (lastName path path).take 15 }
  setPcb me fun p => { p with pagetable := some pagetable }
  setPcb me fun p => { p with sz := sz }
  onPhys (storeWord (tf + tfEpc) entry)
  onPhys (storeWord (tf + tfR13) sp)
  onPhys (procFreepagetable K (p.pagetable.getD 0) p.sz)

/-- `kexec` from the release of the inode on. -/
def execTail (me : ProcId) (path : Fs.Path) (argv : List (List UInt8)) (pagetable sz entry : ℕ) :
    SysM ℤ := do
  let p ← pcb me
  let r ← onPhys (buildStack K ⟨p.sz, p.pagetable.getD 0⟩ pagetable argv sz)
  match r.2 with
  | none => do
    onPhys (procFreepagetable K pagetable r.1)
    return -1
  | some sp => do
    execCommit K me path pagetable r.1 sp entry
    return argv.length

/-- `kexec`. -/
def kexec (me : ProcId) (path : Fs.Path) (argv : List (List UInt8)) : Kern ℤ := do
  onFs Fs.beginOp
  match ← onFs (Fs.namei me path) with
  | none => do
    onFs Fs.endOp
    return -1
  | some ip => do
    onFs (Fs.ilock ip)
    let p ← onMach (pcb me)
    let l ← loadElf K (p.trapframe.getD 0) ip
    if l.ok then do
      onFs (Fs.iunlockput ip)
      onFs Fs.endOp
      onMach (execTail K me path argv (l.pagetable.getD 0) l.sz l.entry)
    else do
      match l.pagetable with
      | none => pure ()
      | some pagetable => onMach (onPhys (procFreepagetable K pagetable l.sz))
      onFs (Fs.iunlockput ip)
      onFs Fs.endOp
      return -1

end Xv6.Vm
