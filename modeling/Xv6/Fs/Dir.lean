import Xv6.Fs.Inode

/-!
# Directories and paths

The part of `fs.c` above inodes. A path is the list of its bytes, without the final zero.
-/

namespace Xv6.Fs

open Conc Eff

/-! ## Directories -/

/-- `readi` of the directory entry at an offset; the value is `none` when it is not read whole. -/
def readDirent (dp : InodeId) (off : ℕ) : Fs (Option Dirent) := do
  let r ← readi dp .kernel off direntSize
  return if r.1 = direntSize then some (.decode fun j => r.2.getD j 0) else none

/-- The loop of `dirlookup` over offsets; the value is the slot of the inode and the offset of the
entry. -/
def dirlookupLoop (dp : InodeId) (name : Name) : List ℕ → Fs (Option (InodeId × ℕ))
  | [] => return none
  | off :: rest => do
    match ← readDirent dp off with
    | none => panic "dirlookup read"
    | some de =>
      if de.inum ≠ 0 ∧ namecmp name de.name = 0 then
        let dev ← gets fun m => (m.itable dp).dev
        return some (← iget dev de.inum, off)
      else
        dirlookupLoop dp name rest

/-- The offsets of the entries of a directory from entry `k` on, of a directory of size `size`. -/
def offsets (k size : ℕ) : List ℕ :=
  (List.range' k ((size + direntSize - 1) / direntSize - k)).map (direntSize * ·)

/-- `dirlookup`. -/
def dirlookup (dp : InodeId) (name : Name) : Fs (Option (InodeId × ℕ)) := do
  let d ← dinode dp
  if d.type ≠ tDir then
    panic "dirlookup not DIR"
  else
    dirlookupLoop dp name (offsets 0 d.size)

/-- The loop of `dirlink` that looks for an empty entry; the value is `off` at its end. -/
def dirlinkLoop (dp : InodeId) (last : ℕ) : List ℕ → Fs ℕ
  | [] => return last
  | off :: rest => do
    match ← readDirent dp off with
    | none => panic "dirlink read"
    | some de => if de.inum = 0 then return off else dirlinkLoop dp last rest

/-- `dirlink`. -/
def dirlink (dp : InodeId) (name : Name) (inum : ℕ) : Fs ℤ := do
  match ← dirlookup dp name with
  | some (ip, _) =>
    iput ip
    return -1
  | none =>
    let d ← dinode dp
    let off ← dirlinkLoop dp ((d.size + direntSize - 1) / direntSize * direntSize)
      (offsets 0 d.size)
    let de : Dirent := ⟨inum % 2 ^ 16, strncpy name⟩
    let r ← writei dp (.kernel de.encode) off direntSize
    if r ≠ direntSize then
      return -1
    else
      modify fun m => m.stampEntry (m.itable dp).inum (off / direntSize) (inum % 2 ^ 16)
      return 0

/-! ## Paths -/

/-- A path, or another string, as its bytes. -/
abbrev Path := List UInt8

/-- The byte of `/`. -/
abbrev slash : UInt8 := 47

/-- `skipelem`: the rest of the path, and the name. -/
def skipelem (path : Path) (name : Name) : Option (Path × Name) :=
  let s := path.dropWhile (· == slash)
  if s = [] then none
  else
    let elem := s.takeWhile (· != slash)
    let copied := name.blit 0 (min elem.length dirsiz) fun i => elem.getD i 0
    some ((s.dropWhile (· != slash)).dropWhile (· == slash),
      if elem.length < dirsiz then copied.set elem.length 0 else copied)

/-- `idup(myproc()->cwd)`. -/
def idupCwd (p : ProcId) : Action Mem InodeId := fun _ m =>
  match (m.proc p).cwd with
  | some ip => .ok ip (m.setInode ip { m.itable ip with ref := (m.itable ip).ref + 1 })
  | none => .block

/-- The loop of `namex`, for a path of at most `k` elements. -/
def namexLoop (nameiparent : Bool) : ℕ → InodeId → Path → Name → Fs (Option (InodeId × Name))
  | 0, _, _, _ => return none
  | k + 1, ip, path, name =>
    match skipelem path name with
    | none =>
      if nameiparent then do
        iput ip
        return none
      else
        return some (ip, name)
    | some (path, name) => do
      ilock ip
      let d ← dinode ip
      if d.type ≠ tDir then
        iunlockput ip
        return none
      else if nameiparent ∧ path = [] then
        iunlock ip
        return some (ip, name)
      else
        match ← dirlookup ip name with
        | none =>
          iunlockput ip
          return none
        | some (next, _) =>
          iunlockput ip
          namexLoop nameiparent k next path name

/-- `namex`. -/
def namex (p : ProcId) (path : Path) (nameiparent : Bool) : Fs (Option (InodeId × Name)) := do
  let ip ← if path.head? = some slash then iget rootdev rootino else mem (idupCwd p)
  namexLoop nameiparent (path.length + 1) ip path (.zero _)

/-- `namei`. -/
def namei (p : ProcId) (path : Path) : Fs (Option InodeId) := do
  return (← namex p path false).map Prod.fst

/-- `nameiparent`. -/
def nameiparent (p : ProcId) (path : Path) : Fs (Option (InodeId × Name)) :=
  namex p path true

end Xv6.Fs
