import Xv6.Fs.State

/-!
# Blocks and inodes

The part of `fs.c` below directories: the block allocator, the inode table, and the contents of
inodes. A loop of the source is a recursion over the values its counter takes; the copy loops of
`readi` and `writei`, which advance by at least one byte, recurse on a number of turns that is at
least the number of bytes.
-/

namespace Xv6.Fs

open Conc Eff

/-! ## Blocks -/

/-- `bzero`. -/
def bzero (b : ℕ) : Fs Unit := do
  let _ ← bread b
  logWrite b (.zero _)
  brelse b

/-- The loop of `balloc` over the blocks of the free map: `k` of them, from the bit of `b` on. -/
def ballocLoop (sb : Superblock) : ℕ → ℕ → Fs ℕ
  | 0, _ => return 0
  | k + 1, b => do
    let x ← bread (bblock b sb)
    match (List.range' 0 (min bpb (sb.size - b))).find? fun bi => !getBit x bi with
    | some bi =>
      logWrite (bblock b sb) (setBit x bi)
      brelse (bblock b sb)
      bzero (b + bi)
      return b + bi
    | none =>
      brelse (bblock b sb)
      ballocLoop sb k (b + bpb)

/-- `balloc`; `0` when there is no free block. -/
def balloc : Fs ℕ := do
  let sb ← gets (·.sb)
  ballocLoop sb ((sb.size + bpb - 1) / bpb) 0

/-- `bfree`. -/
def bfree (b : ℕ) : Fs Unit := do
  let sb ← gets (·.sb)
  let x ← bread (bblock b sb)
  if getBit x (b % bpb) = false then
    panic "freeing free block"
  else
    logWrite (bblock b sb) (clearBit x (b % bpb))
    brelse (bblock b sb)

/-! ## The inode table -/

/-- The copy of the disk inode in a slot of the table. -/
def dinode (ip : InodeId) : Fs Dinode := gets fun m => (m.itable ip).d

/-- A store to the copy of the disk inode. -/
def setDinode (ip : InodeId) (f : Dinode → Dinode) : Fs Unit :=
  modify fun m => m.setInode ip { m.itable ip with d := f (m.itable ip).d }

/-- `iget` under `itable_lock`. -/
def igetSection (dev inum : ℕ) : Action Mem InodeId := fun _ m =>
  match (List.finRange ninode).find? fun i =>
    decide (0 < (m.itable i).ref ∧ (m.itable i).dev = dev ∧ (m.itable i).inum = inum) with
  | some i => .ok i (m.setInode i { m.itable i with ref := (m.itable i).ref + 1 })
  | none =>
    match (List.finRange ninode).find? fun i => decide ((m.itable i).ref = 0) with
    | some i =>
      .ok i (m.setInode i { m.itable i with dev := dev, inum := inum, ref := 1, valid := false })
    | none => .panic "iget: no inodes"

/-- `iget`. -/
def iget (dev inum : ℕ) : Fs InodeId := mem (igetSection dev inum)

/-- `idup`. -/
def idup (ip : InodeId) : Fs Unit :=
  modify fun m => m.setInode ip { m.itable ip with ref := (m.itable ip).ref + 1 }

/-- `iupdate`. -/
def iupdate (ip : InodeId) : Fs Unit := do
  let sb ← gets (·.sb)
  let v ← gets fun m => m.itable ip
  let x ← bread (iblock v.inum sb)
  logWrite (iblock v.inum sb) (putDinode x (v.inum % ipb) v.d)
  brelse (iblock v.inum sb)

/-- The loop of `ialloc` over inode numbers. -/
def iallocLoop (sb : Superblock) (dev type : ℕ) : List ℕ → Fs (Option InodeId)
  | [] => return none
  | inum :: rest => do
    let x ← bread (iblock inum sb)
    if (getDinode x (inum % ipb)).type = 0 then
      logWrite (iblock inum sb) (putDinode x (inum % ipb) { Dinode.zero with type := type })
      brelse (iblock inum sb)
      modify fun m => m.bear inum
      return some (← iget dev inum)
    else
      brelse (iblock inum sb)
      iallocLoop sb dev type rest

/-- `ialloc`. -/
def ialloc (dev type : ℕ) : Fs (Option InodeId) := do
  let sb ← gets (·.sb)
  iallocLoop sb dev type (List.range' 1 (sb.ninodes - 1))

/-- `ilock` up to `acquiresleep`. -/
def acquireInode (ip : InodeId) : Action Mem Unit := fun t m =>
  if (m.itable ip).ref < 1 then .panic "ilock"
  else match (m.itable ip).lock with
    | some _ => .block
    | none => .ok () (m.setInode ip { m.itable ip with lock := some t })

/-- `ilock`. -/
def ilock (ip : InodeId) : Fs Unit := do
  mem (acquireInode ip)
  let v ← gets fun m => m.itable ip
  if v.valid = false then
    let sb ← gets (·.sb)
    let x ← bread (iblock v.inum sb)
    setDinode ip fun _ => getDinode x (v.inum % ipb)
    brelse (iblock v.inum sb)
    modify fun m => m.setInode ip { m.itable ip with valid := true }
    if (getDinode x (v.inum % ipb)).type = 0 then
      panic "ilock: no type"

/-- `iunlock`. -/
def iunlock (ip : InodeId) : Fs Unit := mem fun t m =>
  if (m.itable ip).lock ≠ some t ∨ (m.itable ip).ref < 1 then .panic "iunlock"
  else .ok () (m.setInode ip { m.itable ip with lock := none })

/-! ## The contents of an inode -/

/-- `bmap`'s `if((addr = ip->addrs[k]) == 0) { addr = balloc(ip->dev); ... ip->addrs[k] = addr; }`;
`0` when `balloc` fails. -/
def slotAddr (ip : InodeId) (k : Fin 13) : Fs ℕ := do
  let d ← dinode ip
  if d.addrs k = 0 then
    let addr ← balloc
    if addr = 0 then
      return 0
    else
      setDinode ip fun d => d.setAddr k addr
      return addr
  else
    return d.addrs k

/-- `bmap`. -/
def bmap (ip : InodeId) (bn : ℕ) : Fs ℕ :=
  if h : bn < ndirect then
    slotAddr ip ⟨bn, lt_addrs h⟩
  else if bn - ndirect < nindirect then do
    let addr ← slotAddr ip 12
    if addr = 0 then
      return 0
    else
      let x ← bread addr
      if x.rd (4 * (bn - ndirect)) 4 = 0 then
        let a ← balloc
        if a ≠ 0 then
          logWrite addr (x.wr (4 * (bn - ndirect)) 4 a)
        brelse addr
        return a
      else
        brelse addr
        return x.rd (4 * (bn - ndirect)) 4
  else
    panic "bmap: out of range"

/-- The loop of `itrunc` over the direct blocks. -/
def itruncDirect (ip : InodeId) : List (Fin 13) → Fs Unit
  | [] => return
  | k :: ks => do
    let d ← dinode ip
    if d.addrs k ≠ 0 then
      bfree (d.addrs k)
      setDinode ip fun d => d.setAddr k 0
    itruncDirect ip ks

/-- The loop of `itrunc` over the entries of the indirect block. -/
def itruncIndirect (x : Block) : List ℕ → Fs Unit
  | [] => return
  | j :: js => do
    if x.rd (4 * j) 4 ≠ 0 then
      bfree (x.rd (4 * j) 4)
    itruncIndirect x js

/-- `itrunc`. -/
def itrunc (ip : InodeId) : Fs Unit := do
  itruncDirect ip ((List.finRange 12).map Fin.castSucc)
  let d ← dinode ip
  if d.addrs 12 ≠ 0 then
    let x ← bread (d.addrs 12)
    itruncIndirect x (List.range' 0 nindirect)
    brelse (d.addrs 12)
    bfree (d.addrs 12)
    setDinode ip fun d => d.setAddr 12 0
  setDinode ip fun d => { d with size := 0 }
  iupdate ip

/-- `iput` under `itable_lock` up to `release`: either the inode is to be freed, and is locked, or
the reference is dropped. -/
def iputSection (ip : InodeId) : Action Mem Bool := fun t m =>
  let v := m.itable ip
  if v.ref = 1 ∧ v.valid = true ∧ v.d.nlink = 0 then
    match v.lock with
    | some _ => .panic "sched locks"
    | none => .ok true (m.setInode ip { v with lock := some t })
  else .ok false (m.setInode ip { v with ref := v.ref - 1 })

/-- `iput`. -/
def iput (ip : InodeId) : Fs Unit := do
  if ← mem (iputSection ip) then
    itrunc ip
    setDinode ip fun d => { d with type := 0 }
    iupdate ip
    modify fun m => m.setInode ip { m.itable ip with valid := false }
    modify fun m => m.setInode ip { m.itable ip with lock := none }
    modify fun m => m.setInode ip { m.itable ip with ref := (m.itable ip).ref - 1 }

/-- `iunlockput`. -/
def iunlockput (ip : InodeId) : Fs Unit := do
  iunlock ip
  iput ip

/-- The loop of `ireclaim` over inode numbers. -/
def ireclaimLoop (sb : Superblock) : List ℕ → Fs Unit
  | [] => return
  | inum :: rest => do
    let x ← bread (iblock inum sb)
    let d := getDinode x (inum % ipb)
    if d.type ≠ 0 ∧ d.nlink = 0 then
      let ip ← iget rootdev inum
      brelse (iblock inum sb)
      beginOp
      ilock ip
      iunlock ip
      iput ip
      endOp
    else
      brelse (iblock inum sb)
    ireclaimLoop sb rest

/-- `ireclaim`. -/
def ireclaim : Fs Unit := do
  let sb ← gets (·.sb)
  ireclaimLoop sb (List.range' 1 (sb.ninodes - 1))

/-- `fsinit`; `initlog` has no effect on a block store. -/
def fsinit : Fs Unit := do
  let x ← bread 1
  modify fun m => { m with sb := getSuperblock x }
  brelse 1
  if (getSuperblock x).magic ≠ fsmagic then
    panic "invalid file system"
  else
    ireclaim

/-! ## User memory -/

/-- The user pages that `copyin` and `copyout` reach, by page number: those that are mapped for
the user, and those that `vmfault` maps. -/
abbrev UserMem := ℕ → Option (Bytes 4096)

/-- The byte at a user address. -/
def UserMem.get (u : UserMem) (va : ℕ) : UInt8 :=
  match u (va / 4096) with
  | some page => page.get (va % 4096)
  | none => 0

/-- The loop of `copyin`: how many bytes it copies, and whether it copies all of them. -/
def copyin (u : UserMem) : ℕ → ℕ → ℕ → ℕ × Bool
  | 0, _, _ => (0, true)
  | k + 1, va, len =>
    if len = 0 then (0, true)
    else if (u (va / 4096)).isNone then (0, false)
    else
      let n := min (4096 - va % 4096) len
      let r := copyin u k ((va / 4096 + 1) * 4096 % 2 ^ 32) (len - n)
      (n + r.1, r.2)

/-- The loop of `copyout`, for a page table whose writable user pages are `w`: whether it copies
all the bytes. -/
def copyout (w : ℕ → Bool) : ℕ → ℕ → ℕ → Bool
  | 0, _, _ => true
  | k + 1, va, len =>
    if len = 0 then true
    else if w (va / 4096) = false then false
    else copyout w k ((va / 4096 + 1) * 4096 % 2 ^ 32) (len - min (4096 - va % 4096) len)

/-- Where `writei` copies from: kernel memory, or an address of the user. -/
inductive Src
  | kernel (f : ℕ → UInt8)
  | user (u : UserMem) (va : ℕ)

/-- The byte at offset `i` of a source. -/
def Src.get : Src → ℕ → UInt8
  | .kernel f, i => f i
  | .user u va, i => UserMem.get u ((va + i) % 2 ^ 32)

/-- `either_copyin` of `len` bytes from offset `i` of a source on. -/
def eitherCopyin : Src → ℕ → ℕ → ℕ × Bool
  | .kernel _, _, len => (len, true)
  | .user u va, i, len => copyin u len ((va + i) % 2 ^ 32) len

/-- Where `readi` copies to: kernel memory, or an address of the user. -/
inductive Dst
  | kernel
  | user (w : ℕ → Bool) (va : ℕ)

/-- `either_copyout` of `len` bytes to offset `i` of a destination. -/
def eitherCopyout : Dst → ℕ → ℕ → Bool
  | .kernel, _, _ => true
  | .user w va, i, len => copyout w len ((va + i) % 2 ^ 32) len

/-! ## Reads and writes -/

/-- The loop of `readi`; the value is the result and the bytes copied. -/
def readiLoop (ip : InodeId) (dst : Dst) (n : ℕ) : ℕ → ℕ → ℕ → List UInt8 → Fs (ℤ × List UInt8)
  | 0, tot, _, acc => return (tot, acc)
  | k + 1, tot, off, acc =>
    if tot < n then do
      let addr ← bmap ip (off / bsize)
      if addr = 0 then
        return (tot, acc)
      else
        let x ← bread addr
        let m := min (n - tot) (bsize - off % bsize)
        if eitherCopyout dst tot m then
          brelse addr
          readiLoop ip dst n k (tot + m) (off + m)
            (acc ++ (List.range' 0 m).map fun i => x.get (off % bsize + i))
        else
          brelse addr
          return (-1, acc)
    else
      return (tot, acc)

/-- `readi`. -/
def readi (ip : InodeId) (dst : Dst) (off n : ℕ) : Fs (ℤ × List UInt8) := do
  let d ← dinode ip
  if d.size < off ∨ (off + n) % 2 ^ 32 < off then
    return (0, [])
  else
    let n := if d.size < off + n then d.size - off else n
    readiLoop ip dst n n 0 off []

/-- The loop of `writei`; the value is `tot` and `off` at its end. -/
def writeiLoop (ip : InodeId) (src : Src) (n : ℕ) : ℕ → ℕ → ℕ → Fs (ℕ × ℕ)
  | 0, tot, off => return (tot, off)
  | k + 1, tot, off =>
    if tot < n then do
      let addr ← bmap ip (off / bsize)
      if addr = 0 then
        return (tot, off)
      else
        let x ← bread addr
        let m := min (n - tot) (bsize - off % bsize)
        let r := eitherCopyin src tot m
        let y := x.blit (off % bsize) r.1 fun i => src.get (tot + i)
        if r.2 then
          logWrite addr y
          brelse addr
          writeiLoop ip src n k (tot + m) (off + m)
        else
          scribble addr y
          brelse addr
          return (tot, off)
    else
      return (tot, off)

/-- `writei`. -/
def writei (ip : InodeId) (src : Src) (off n : ℕ) : Fs ℤ := do
  let d ← dinode ip
  if d.size < off ∨ (off + n) % 2 ^ 32 < off then
    return -1
  else if maxfile * bsize < off + n then
    return -1
  else
    let r ← writeiLoop ip src n n 0 off
    setDinode ip fun d => if d.size < r.2 then { d with size := r.2 } else d
    iupdate ip
    return r.1

end Xv6.Fs
