import Xv6.Fs.Dir

/-!
# Open files and system calls

`file.c` and the file-system calls of `sysfile.c`, and what `kfork`, `kexit` and `kexec` do with
files. A string argument is `none` when `argstr` fails. Of a pipe there is which of its ends are
open. What a device driver returns, what reads and writes of a pipe return, and the outcomes of the
calls of virtual memory in `kexec` are arguments.
-/

namespace Xv6.Fs

open Conc Eff

/-! ## Open files -/

/-- `filealloc`. -/
def filealloc : Fs (Option FileId) := mem fun _ m =>
  match (List.finRange nfile).find? fun f => decide ((m.ftable f).ref = 0) with
  | some f => .ok (some f) (m.setFile f { m.ftable f with ref := 1 })
  | none => .ok none m

/-- `filedup`. -/
def filedup (f : FileId) : Fs Unit := mem fun _ m =>
  if (m.ftable f).ref < 1 then .panic "filedup"
  else .ok () (m.setFile f { m.ftable f with ref := (m.ftable f).ref + 1 })

/-- `fileclose` under `ftable_lock`; the value is the file when this was its last reference. -/
def filecloseSection (f : FileId) : Action Mem (Option File) := fun _ m =>
  if (m.ftable f).ref < 1 then .panic "fileclose"
  else if 0 < (m.ftable f).ref - 1 then
    .ok none (m.setFile f { m.ftable f with ref := (m.ftable f).ref - 1 })
  else .ok (some (m.ftable f)) (m.setFile f { m.ftable f with ref := 0, type := .none })

/-- `pipeclose`; the page is freed when both ends are closed. -/
def pipeclose (a : PipeId) (writable : Bool) : Fs Unit := modify fun m =>
  match m.pipe a with
  | none => m
  | some v =>
    let v := if writable then { v with writeopen := false } else { v with readopen := false }
    m.setPipe a (if v.readopen = false ∧ v.writeopen = false then none else some v)

/-- `fileclose`. -/
def fileclose (f : FileId) : Fs Unit := do
  match ← mem (filecloseSection f) with
  | none => return
  | some ff =>
    if ff.type = .pipe then
      pipeclose ff.pipe ff.writable
    else if ff.type = .inode ∨ ff.type = .device then
      beginOp
      iput ff.ip
      endOp

/-- `struct stat`. -/
structure Stat where
  dev : ℕ
  ino : ℕ
  type : ℕ
  nlink : ℕ
  size : ℕ

/-- `stati`. -/
def stati (ip : InodeId) : Fs Stat := gets fun m =>
  ⟨(m.itable ip).dev, (m.itable ip).inum, (m.itable ip).d.type, (m.itable ip).d.nlink,
    (m.itable ip).d.size⟩

/-- `filestat`; the value is what `copyout` sends when it succeeds. -/
def filestat (f : FileId) (ok : Bool) : Fs (Option Stat) := do
  let v ← gets fun m => m.ftable f
  if v.type = .inode ∨ v.type = .device then
    ilock v.ip
    let st ← stati v.ip
    iunlock v.ip
    return if ok then some st else none
  else
    return none

/-- `NDEV`. -/
abbrev ndev : ℕ := 10

/-- A store to `f->off`. -/
def advance (f : FileId) (r : ℕ) : Fs Unit :=
  modify fun m => m.setFile f { m.ftable f with off := (m.ftable f).off + r }

/-- `fileread` of `n` bytes; `dev` is what the device driver, or `piperead`, returns. -/
def fileread (f : FileId) (dst : Dst) (n dev : ℤ) : Fs (ℤ × List UInt8) := do
  let v ← gets fun m => m.ftable f
  if v.readable = false then
    return (-1, [])
  else match v.type with
    | .pipe => return (dev, [])
    | .device => return (if v.major < ndev then dev else -1, [])
    | .inode =>
      ilock v.ip
      let r ← readi v.ip dst v.off (n % 2 ^ 32).toNat
      if 0 < r.1 then
        advance f r.1.toNat
      iunlock v.ip
      return r
    | .none => panic "fileread"

/-- The loop of `filewrite`; the value is `i` at its end. -/
def filewriteLoop (f : FileId) (ip : InodeId) (u : UserMem) (va : ℕ) (n : ℕ) : ℕ → ℕ → Fs ℕ
  | 0, i => return i
  | k + 1, i =>
    if i < n then do
      let n1 := min (n - i) 3072
      beginOp
      ilock ip
      let off ← gets fun m => (m.ftable f).off
      let r ← writei ip (.user u ((va + i) % 2 ^ 32)) off n1
      if 0 < r then
        advance f r.toNat
      iunlock ip
      endOp
      if r = n1 then
        filewriteLoop f ip u va n k (i + n1)
      else
        return i
    else
      return i

/-- `filewrite` of `n` bytes; `dev` is what the device driver, or `pipewrite`, returns. -/
def filewrite (f : FileId) (u : UserMem) (va : ℕ) (n dev : ℤ) : Fs ℤ := do
  let v ← gets fun m => m.ftable f
  if v.writable = false then
    return -1
  else match v.type with
    | .pipe => return dev
    | .device => return if v.major < ndev then dev else -1
    | .inode =>
      let i ← filewriteLoop f v.ip u va n.toNat n.toNat 0
      return if (i : ℤ) = n then n else -1
    | .none => panic "filewrite"

/-! ## Descriptors -/

/-- `argfd`. -/
def argfd (p : ProcId) (fd : ℤ) : Fs (Option (Fin nofile × FileId)) := gets fun m =>
  if h : 0 ≤ fd ∧ fd < nofile then
    ((m.proc p).ofile ⟨fd.toNat, by omega⟩).map fun f => (⟨fd.toNat, by omega⟩, f)
  else none

/-- `fdalloc`. -/
def fdalloc (p : ProcId) (f : FileId) : Fs (Option (Fin nofile)) := mem fun _ m =>
  match (List.finRange nofile).find? fun fd => ((m.proc p).ofile fd).isNone with
  | some fd => .ok (some fd) (m.setOfile p fd (some f))
  | none => .ok none m

/-- `sys_dup`. -/
def sysDup (p : ProcId) (fd : ℤ) : Fs ℤ := do
  match ← argfd p fd with
  | none => return -1
  | some (_, f) =>
    match ← fdalloc p f with
    | none => return -1
    | some fd =>
      filedup f
      return fd

/-- `sys_read`. -/
def sysRead (p : ProcId) (fd : ℤ) (w : ℕ → Bool) (va : ℕ) (n dev : ℤ) : Fs ℤ := do
  match ← argfd p fd with
  | none => return -1
  | some (_, f) => return (← fileread f (.user w va) n dev).1

/-- `sys_write`. -/
def sysWrite (p : ProcId) (fd : ℤ) (u : UserMem) (va : ℕ) (n dev : ℤ) : Fs ℤ := do
  match ← argfd p fd with
  | none => return -1
  | some (_, f) => filewrite f u va n dev

/-- `sys_close`. -/
def sysClose (p : ProcId) (fd : ℤ) : Fs ℤ := do
  match ← argfd p fd with
  | none => return -1
  | some (fd, f) =>
    modify fun m => m.setOfile p fd none
    fileclose f
    return 0

/-- `sys_fstat`. -/
def sysFstat (p : ProcId) (fd : ℤ) (ok : Bool) : Fs ℤ := do
  match ← argfd p fd with
  | none => return -1
  | some (_, f) => return if (← filestat f ok).isSome then 0 else -1

/-! ## Names -/

/-- A store to `ip->nlink`, a `short`. -/
def setNlink (ip : InodeId) (f : ℕ → ℕ) : Fs Unit :=
  setDinode ip fun d => { d with nlink := f d.nlink % 2 ^ 16 }

/-- `sys_link` after `bad:`. -/
def linkBad (ip : InodeId) : Fs ℤ := do
  ilock ip
  setNlink ip fun n => n + (2 ^ 16 - 1)
  iupdate ip
  iunlockput ip
  endOp
  return -1

/-- `sys_link`. -/
def sysLink (p : ProcId) (old new : Option Path) : Fs ℤ := do
  match old, new with
  | some old, some new =>
    beginOp
    match ← namei p old with
    | none =>
      endOp
      return -1
    | some ip =>
      ilock ip
      let d ← dinode ip
      if d.type = tDir then
        iunlockput ip
        endOp
        return -1
      else
        setNlink ip fun n => n + 1
        iupdate ip
        iunlock ip
        match ← nameiparent p new with
        | none => linkBad ip
        | some (dp, name) =>
          ilock dp
          let m ← gets id
          if (m.itable dp).dev ≠ (m.itable ip).dev then
            iunlockput dp
            linkBad ip
          else if (← dirlink dp name (m.itable ip).inum) < 0 then
            iunlockput dp
            linkBad ip
          else
            iunlockput dp
            iput ip
            endOp
            return 0
  | _, _ => return -1

/-- The loop of `isdirempty` over offsets. -/
def isdiremptyLoop (dp : InodeId) : List ℕ → Fs Bool
  | [] => return true
  | off :: rest => do
    match ← readDirent dp off with
    | none => panic "isdirempty: readi"
    | some de => if de.inum ≠ 0 then return false else isdiremptyLoop dp rest

/-- `isdirempty`. -/
def isdirempty (dp : InodeId) : Fs Bool := do
  let d ← dinode dp
  isdiremptyLoop dp (offsets 2 d.size)

/-- `"."`. -/
def dot : Name := nameOf [46]

/-- `".."`. -/
def dotdot : Name := nameOf [46, 46]

/-- `sys_unlink` after `bad:`. -/
def unlinkBad (dp : InodeId) : Fs ℤ := do
  iunlockput dp
  endOp
  return -1

/-- `sys_unlink` from `memset(&de, 0, sizeof(de))` on, with both inodes locked. -/
def unlinkEntry (dp ip : InodeId) (off : ℕ) : Fs ℤ := do
  let r ← writei dp (.kernel fun _ => 0) off direntSize
  if r ≠ direntSize then
    panic "unlink: writei"
  else
    let d ← dinode ip
    if d.type = tDir then
      setNlink dp fun n => n + (2 ^ 16 - 1)
      iupdate dp
    iunlockput dp
    setNlink ip fun n => n + (2 ^ 16 - 1)
    iupdate ip
    iunlockput ip
    endOp
    return 0

/-- `sys_unlink`. -/
def sysUnlink (p : ProcId) (path : Option Path) : Fs ℤ := do
  match path with
  | none => return -1
  | some path =>
    beginOp
    match ← nameiparent p path with
    | none =>
      endOp
      return -1
    | some (dp, name) =>
      ilock dp
      if namecmp name dot = 0 ∨ namecmp name dotdot = 0 then
        unlinkBad dp
      else
        match ← dirlookup dp name with
        | none => unlinkBad dp
        | some (ip, off) =>
          ilock ip
          let d ← dinode ip
          -- `nlink` is a `short`
          if d.nlink = 0 ∨ 2 ^ 15 ≤ d.nlink then
            panic "unlink: nlink < 1"
          else if d.type = tDir then
            if ← isdirempty ip then
              unlinkEntry dp ip off
            else
              iunlockput ip
              unlinkBad dp
          else
            unlinkEntry dp ip off

/-- `create` after `fail:`. -/
def createFail (dp ip : InodeId) : Fs (Option InodeId) := do
  setNlink ip fun _ => 0
  iupdate ip
  iunlockput ip
  iunlockput dp
  return none

/-- `create` from `if(dirlink(dp, name, ip->inum) < 0)` on. -/
def createEnter (dp ip : InodeId) (name : Name) (type inum : ℕ) : Fs (Option InodeId) := do
  if (← dirlink dp name inum) < 0 then
    createFail dp ip
  else
    if type = tDir then
      setNlink dp fun n => n + 1
      iupdate dp
    iunlockput dp
    return some ip

/-- `create` for a name that is not in the directory. -/
def createNew (dp ip : InodeId) (name : Name) (type major minor : ℕ) : Fs (Option InodeId) := do
  ilock ip
  setDinode ip fun d => { d with major := major % 2 ^ 16, minor := minor % 2 ^ 16, nlink := 1 }
  iupdate ip
  let m ← gets id
  if type = tDir then
    if (← dirlink ip dot (m.itable ip).inum) < 0 then
      createFail dp ip
    else if (← dirlink ip dotdot (m.itable dp).inum) < 0 then
      createFail dp ip
    else
      createEnter dp ip name type (m.itable ip).inum
  else
    createEnter dp ip name type (m.itable ip).inum

/-- `create`; the inode it returns is locked. -/
def create (p : ProcId) (path : Path) (type major minor : ℕ) : Fs (Option InodeId) := do
  match ← nameiparent p path with
  | none => return none
  | some (dp, name) =>
    ilock dp
    match ← dirlookup dp name with
    | some (ip, _) =>
      iunlockput dp
      ilock ip
      let d ← dinode ip
      if type = tFile ∧ (d.type = tFile ∨ d.type = tDevice) then
        return some ip
      else
        iunlockput ip
        return none
    | none =>
      let dev ← gets fun m => (m.itable dp).dev
      match ← ialloc dev type with
      | none =>
        iunlockput dp
        return none
      | some ip => createNew dp ip name type major minor

/-- `sys_open` with the inode locked. -/
def openFile (p : ProcId) (ip : InodeId) (omode : ℕ) : Fs ℤ := do
  let d ← dinode ip
  if d.type = tDevice ∧ ¬ d.major < ndev then
    iunlockput ip
    endOp
    return -1
  else
    match ← filealloc with
    | none =>
      iunlockput ip
      endOp
      return -1
    | some f =>
      match ← fdalloc p f with
      | none =>
        fileclose f
        iunlockput ip
        endOp
        return -1
      | some fd =>
        modify fun m => m.setFile f { m.ftable f with
          type := if d.type = tDevice then .device else .inode
          major := if d.type = tDevice then d.major else (m.ftable f).major
          off := if d.type = tDevice then (m.ftable f).off else 0
          ip := ip
          readable := !omode.testBit 0
          writable := omode.testBit 0 || omode.testBit 1 }
        if omode.testBit 10 ∧ d.type = tFile then
          itrunc ip
        iunlock ip
        endOp
        return fd

/-- `sys_open`. -/
def sysOpen (p : ProcId) (path : Option Path) (omode : ℕ) : Fs ℤ := do
  match path with
  | none => return -1
  | some path =>
    beginOp
    if omode.testBit 9 then
      match ← create p path tFile 0 0 with
      | none =>
        endOp
        return -1
      | some ip => openFile p ip omode
    else
      match ← namei p path with
      | none =>
        endOp
        return -1
      | some ip =>
        ilock ip
        let d ← dinode ip
        if d.type = tDir ∧ omode ≠ 0 then
          iunlockput ip
          endOp
          return -1
        else
          openFile p ip omode

/-- `sys_mkdir` and `sys_mknod` after the arguments. -/
def makeNode (p : ProcId) (path : Option Path) (type major minor : ℕ) : Fs ℤ := do
  beginOp
  match path with
  | none =>
    endOp
    return -1
  | some path =>
    match ← create p path type major minor with
    | none =>
      endOp
      return -1
    | some ip =>
      iunlockput ip
      endOp
      return 0

/-- `sys_mkdir`. -/
def sysMkdir (p : ProcId) (path : Option Path) : Fs ℤ := makeNode p path tDir 0 0

/-- `sys_mknod`. -/
def sysMknod (p : ProcId) (path : Option Path) (major minor : ℕ) : Fs ℤ :=
  makeNode p path tDevice major minor

/-- `iput(p->cwd)`. -/
def iputCwd (p : ProcId) : Fs Unit := do
  match ← gets fun m => (m.proc p).cwd with
  | none => return
  | some ip => iput ip

/-- `sys_chdir`. -/
def sysChdir (p : ProcId) (path : Option Path) : Fs ℤ := do
  beginOp
  match path with
  | none =>
    endOp
    return -1
  | some path =>
    match ← namei p path with
    | none =>
      endOp
      return -1
    | some ip =>
      ilock ip
      let d ← dinode ip
      if d.type ≠ tDir then
        iunlockput ip
        endOp
        return -1
      else
        iunlock ip
        iputCwd p
        endOp
        modify fun m => m.setProc p { m.proc p with cwd := some ip }
        return 0

/-! ## Pipes -/

/-- `pipealloc`; `page` is the page that `kalloc` returns. -/
def pipealloc (page : Option PipeId) : Fs (Option (FileId × FileId)) := do
  match ← filealloc with
  | none => return none
  | some f0 =>
    match ← filealloc with
    | none =>
      fileclose f0
      return none
    | some f1 =>
      match page with
      | none =>
        fileclose f0
        fileclose f1
        return none
      | some a =>
        modify fun m => m.setPipe a (some ⟨true, true⟩)
        modify fun m => m.setFile f0
          { m.ftable f0 with type := .pipe, readable := true, writable := false, pipe := a }
        modify fun m => m.setFile f1
          { m.ftable f1 with type := .pipe, readable := false, writable := true, pipe := a }
        return some (f0, f1)

/-- `sys_pipe`; `ok` is whether `copyout` of the descriptors succeeds. -/
def sysPipe (p : ProcId) (page : Option PipeId) (ok : Bool) : Fs ℤ := do
  match ← pipealloc page with
  | none => return -1
  | some (rf, wf) =>
    match ← fdalloc p rf with
    | none =>
      fileclose rf
      fileclose wf
      return -1
    | some fd0 =>
      match ← fdalloc p wf with
      | none =>
        modify fun m => m.setOfile p fd0 none
        fileclose rf
        fileclose wf
        return -1
      | some fd1 =>
        if ok then
          return 0
        else
          modify fun m => m.setOfile p fd0 none
          modify fun m => m.setOfile p fd1 none
          fileclose rf
          fileclose wf
          return -1

/-! ## Executables -/

/-- `ELF_MAGIC`. -/
abbrev elfMagic : ℕ := 0x464C457F

/-- `ELF_PROG_LOAD`. -/
abbrev elfProgLoad : ℕ := 1

/-- `sizeof(struct elfhdr)`. -/
abbrev elfhdrSize : ℕ := 52

/-- `sizeof(struct proghdr)`. -/
abbrev proghdrSize : ℕ := 32

/-- A field of a header, from the bytes of the header. -/
def field (l : List UInt8) (off width : ℕ) : ℕ :=
  (Bytes.ofFn 64 fun j => l.getD j 0).rd off width

/-- The loop of `loadseg` with `i` bytes of `sz` read; it has read them all after `k` turns. That
the pages are mapped is a matter of virtual memory. -/
def loadseg (ip : InodeId) (va offset sz : ℕ) : ℕ → ℕ → Fs Bool
  | 0, _ => return true
  | k + 1, i =>
    if i < sz then do
      let n := min (4096 - (va + i) % 4096) (sz - i)
      let r ← readi ip .kernel ((offset + i) % 2 ^ 32) n
      if r.1 ≠ n then
        return false
      else
        loadseg ip va offset sz k (i + n)
    else
      return true

/-- The loop of `kexec` over program headers; `vm i` is whether `uvmalloc` for header `i` succeeds.
The value is false after `goto bad`. -/
def loadSegments (ip : InodeId) (vm : ℕ → Bool) (phoff : ℕ) : List ℕ → Fs Bool
  | [] => return true
  | i :: rest => do
    let r ← readi ip .kernel ((phoff + proghdrSize * i) % 2 ^ 32) proghdrSize
    if r.1 ≠ proghdrSize then
      return false
    else if field r.2 0 4 ≠ elfProgLoad then
      loadSegments ip vm phoff rest
    else if field r.2 20 4 < field r.2 16 4 then
      return false
    else if (field r.2 8 4 + field r.2 20 4) % 2 ^ 32 < field r.2 8 4 then
      return false
    else if vm i = false then
      return false
    else if ← loadseg ip (field r.2 8 4) (field r.2 4 4) (field r.2 16 4) (field r.2 16 4) 0 then
      loadSegments ip vm phoff rest
    else
      return false

/-- `kexec` with the inode locked, up to `iunlockput`; `pt` is whether `proc_pagetable`
succeeds. -/
def loadElf (ip : InodeId) (pt : Bool) (vm : ℕ → Bool) : Fs Bool := do
  let r ← readi ip .kernel 0 elfhdrSize
  if r.1 ≠ elfhdrSize then
    return false
  else if field r.2 0 4 ≠ elfMagic then
    return false
  else if pt = false then
    return false
  else
    loadSegments ip vm (field r.2 28 4) (List.range' 0 (field r.2 44 2))

/-- `kexec`; `ret` is its result when the file has been loaded. -/
def kexec (p : ProcId) (path : Path) (pt : Bool) (vm : ℕ → Bool) (ret : ℤ) : Fs ℤ := do
  beginOp
  match ← namei p path with
  | none =>
    endOp
    return -1
  | some ip =>
    ilock ip
    let ok ← loadElf ip pt vm
    iunlockput ip
    endOp
    return if ok then ret else -1

/-- `sys_exec`; `path` is `none` when an argument cannot be fetched. -/
def sysExec (p : ProcId) (path : Option Path) (pt : Bool) (vm : ℕ → Bool) (ret : ℤ) : Fs ℤ :=
  match path with
  | none => return -1
  | some path => kexec p path pt vm ret

/-! ## Processes -/

/-- The loop of `kfork` over descriptors. -/
def forkLoop (p np : ProcId) : List (Fin nofile) → Fs Unit
  | [] => return
  | fd :: fds => do
    match ← gets fun m => (m.proc p).ofile fd with
    | none => forkLoop p np fds
    | some f =>
      filedup f
      modify fun m => m.setOfile np fd (some f)
      forkLoop p np fds

/-- What `kfork` does to files, for a child in slot `np`. -/
def forkFiles (p np : ProcId) : Fs ℤ := do
  forkLoop p np (List.finRange nofile)
  let ip ← mem (idupCwd p)
  modify fun m => m.setProc np { m.proc np with cwd := some ip }
  return 0

/-- The loop of `kexit` over descriptors. -/
def exitLoop (p : ProcId) : List (Fin nofile) → Fs Unit
  | [] => return
  | fd :: fds => do
    match ← gets fun m => (m.proc p).ofile fd with
    | none => exitLoop p fds
    | some f =>
      fileclose f
      modify fun m => m.setOfile p fd none
      exitLoop p fds

/-- What `kexit` does to files. -/
def exitFiles (p : ProcId) : Fs ℤ := do
  exitLoop p (List.finRange nofile)
  beginOp
  iputCwd p
  endOp
  modify fun m => m.setProc p { m.proc p with cwd := none }
  return 0

/-! ## Calls -/

/-- The calls of a process that reach the file system. -/
inductive Call
  | open (path : Option Path) (omode : ℕ)
  | close (fd : ℤ)
  | dup (fd : ℤ)
  | read (fd : ℤ) (w : ℕ → Bool) (va : ℕ) (n dev : ℤ)
  | write (fd : ℤ) (u : UserMem) (va : ℕ) (n dev : ℤ)
  | fstat (fd : ℤ) (ok : Bool)
  | link (old new : Option Path)
  | unlink (path : Option Path)
  | mkdir (path : Option Path)
  | mknod (path : Option Path) (major minor : ℕ)
  | chdir (path : Option Path)
  | pipe (page : Option PipeId) (ok : Bool)
  | exec (path : Option Path) (pt : Bool) (vm : ℕ → Bool) (ret : ℤ)
  | fork (np : ProcId)
  | exit

/-- What a call runs. -/
def Call.body (p : ProcId) : Call → Fs ℤ
  | .open path omode => sysOpen p path omode
  | .close fd => sysClose p fd
  | .dup fd => sysDup p fd
  | .read fd w va n dev => sysRead p fd w va n dev
  | .write fd u va n dev => sysWrite p fd u va n dev
  | .fstat fd ok => sysFstat p fd ok
  | .link old new => sysLink p old new
  | .unlink path => sysUnlink p path
  | .mkdir path => sysMkdir p path
  | .mknod path major minor => sysMknod p path major minor
  | .chdir path => sysChdir p path
  | .pipe page ok => sysPipe p page ok
  | .exec path pt vm ret => sysExec p path pt vm ret
  | .fork np => forkFiles p np
  | .exit => exitFiles p

/-- A process that runs: it has a current directory. -/
def Live (m : Mem) (p : ProcId) : Prop := ((m.proc p).cwd).isSome

/-- A slot of the process table without files. -/
def Unused (m : Mem) (p : ProcId) : Prop :=
  (m.proc p).cwd = none ∧ ∀ fd, (m.proc p).ofile fd = none

/-- When a process may make a call: the child of a fork gets a slot that is not in use, and a pipe
a page that is not in use. -/
def Call.Enabled (m : Mem) (p : ProcId) : Call → Prop
  | .fork np => Live m p ∧ Unused m np
  | .pipe page _ => Live m p ∧ ∀ a ∈ page, m.pipe a = none
  | _ => Live m p

/-- A process makes a call, and the call returns. -/
def Step (s s' : FsSt) : Prop :=
  ∃ (p : ProcId) (c : Call) (r : ℤ), c.Enabled s.mem p ∧ Exec (store p) (c.body p) s (.ok r s')

end Xv6.Fs
