import Xv6.Fs.Owner

/-!
# `mkfs`

The program that builds the file system image, on a host whose byte order is the target's. Its
state is the image file, as the blocks written so far, and the two counters from which it hands out
inodes and blocks. `none` stands for every exit with a status other than 0: a failed assertion, or
`die`. The host's files are lists of what successive calls of `read` return.

Block numbers stay below `2 ^ 22`, so that `sec * BSIZE` does not overflow: reading the first block
past the end of the image ends the program.
-/

namespace Xv6

namespace Mkfs

/-- `FSSIZE`. -/
abbrev fssize : ℕ := 2000

/-- `NINODES`. -/
abbrev ninodes : ℕ := 200

/-- `nbitmap`. -/
abbrev nbitmap : ℕ := fssize / bpb + 1

/-- `ninodeblocks`. -/
abbrev ninodeblocks : ℕ := ninodes / ipb + 1

/-- `nlog`, `LOGBLOCKS + 1`. -/
abbrev nlog : ℕ := 31

/-- `nmeta`. -/
abbrev nmeta : ℕ := 2 + nlog + ninodeblocks + nbitmap

/-- The superblock of the image. -/
def sb : Superblock where
  magic := fsmagic
  size := fssize
  nblocks := fssize - nmeta
  ninodes := ninodes
  nlog := nlog
  logstart := 2
  inodestart := 2 + nlog
  bmapstart := 2 + nlog + ninodeblocks

/-- The image file, `freeinode` and `freeblock`. -/
structure Image where
  size : ℕ
  blk : ℕ → Block
  freeinode : ℕ
  freeblock : ℕ

/-- A file of the host: its name on the command line, whether it can be opened, and what calls of
`read` return. -/
structure HostFile where
  path : List UInt8
  opens : Bool
  chunks : List (List UInt8)

namespace Image

/-- `rsect`: there is nothing to read past the end of the file. -/
def rsect (s : Image) (sec : ℕ) : Option Block := if sec < s.size then some (s.blk sec) else none

/-- `wsect`. -/
def wsect (s : Image) (sec : ℕ) (x : Block) : Image :=
  { s with size := max s.size (sec + 1), blk := fun b => if b = sec then x else s.blk b }

/-- `winode`. -/
def winode (s : Image) (inum : ℕ) (d : Dinode) : Option Image :=
  (s.rsect (iblock inum sb)).map fun x =>
    s.wsect (iblock inum sb) (putDinode x (inum % ipb) d)

/-- `rinode`. -/
def rinode (s : Image) (inum : ℕ) : Option Dinode :=
  (s.rsect (iblock inum sb)).map fun x => getDinode x (inum % ipb)

/-- `ialloc`; the inode it allocates is the old `freeinode`. -/
def ialloc (s : Image) (type : ℕ) : Option Image :=
  { s with freeinode := s.freeinode + 1 }.winode s.freeinode ⟨type, 0, 0, 1, 0, fun _ => 0⟩

/-- The part of `iappend` that finds the block of index `fbn`, or allocates it. -/
def blockAt (s : Image) (din : Dinode) (fbn : ℕ) : Option (ℕ × Dinode × Image) :=
  if h : fbn < ndirect then
    let k : Fin 13 := ⟨fbn, lt_addrs h⟩
    if din.addrs k = 0 then
      some (s.freeblock, din.setAddr k s.freeblock, { s with freeblock := s.freeblock + 1 })
    else some (din.addrs k, din, s)
  else
    let (din, s) := if din.addrs 12 = 0 then
      (din.setAddr 12 s.freeblock, { s with freeblock := s.freeblock + 1 }) else (din, s)
    (s.rsect (din.addrs 12)).map fun indirect =>
      if indirect.rd (4 * (fbn - ndirect)) 4 = 0 then
        (s.freeblock, din,
          { s with freeblock := s.freeblock + 1 }.wsect (din.addrs 12)
            (indirect.wr (4 * (fbn - ndirect)) 4 s.freeblock))
      else (indirect.rd (4 * (fbn - ndirect)) 4, din, s)

/-- The loop of `iappend` with `n` bytes of `p` to go. A turn writes a byte at least, so that `k`
turns are enough when `n ≤ k`. -/
def appendLoop : ℕ → ℕ → (ℕ → UInt8) → Dinode → ℕ → Image → Option (Dinode × ℕ × Image)
  | 0, _, _, din, off, s => some (din, off, s)
  | k + 1, n, p, din, off, s =>
    if n = 0 then some (din, off, s)
    else if off / bsize < maxfile then do
      let (x, din, s) ← s.blockAt din (off / bsize)
      let n1 := min n ((off / bsize + 1) * bsize - off)
      let buf ← s.rsect x
      appendLoop k (n - n1) (fun j => p (n1 + j)) din (off + n1)
        (s.wsect x (buf.blit (off - off / bsize * bsize) n1 p))
    else none

/-- `iappend`. -/
def iappend (s : Image) (inum : ℕ) (p : ℕ → UInt8) (n : ℕ) : Option Image := do
  let din ← s.rinode inum
  let (din, off, s) ← appendLoop n n p din din.size s
  s.winode inum { din with size := off }

/-- `balloc`. -/
def balloc (s : Image) (used : ℕ) : Option Image :=
  if used < bpb then
    some (s.wsect sb.bmapstart ((List.range used).foldl setBit (.zero _)))
  else none

/-- Append an entry to the root directory. -/
def addEntry (s : Image) (inum : ℕ) (name : Name) : Option Image :=
  s.iappend rootino (Dirent.encode ⟨inum % 2 ^ 16, name⟩) direntSize

/-- Append what the calls of `read` return. -/
def appendChunks (inum : ℕ) : List (List UInt8) → Image → Option Image
  | [], s => some s
  | c :: cs, s => (s.iappend inum (fun j => c.getD j 0) c.length).bind (appendChunks inum cs)

/-- The name of a file on the command line without `user/`. -/
def stripUser (path : List UInt8) : List UInt8 :=
  if path.take 5 = [117, 115, 101, 114, 47] then path.drop 5 else path

/-- The name of a file in the image. -/
def shortname (path : List UInt8) : List UInt8 :=
  if (stripUser path).head? = some 95 then (stripUser path).drop 1 else stripUser path

/-- The turn of the loop of `main` for a file. -/
def addFile (s : Image) (f : HostFile) : Option Image :=
  if 47 ∈ stripUser f.path then none
  else if f.opens = false then none
  else if dirsiz < (shortname f.path).length then none
  else do
    let inum := s.freeinode
    let s ← s.ialloc tFile
    let s ← s.addEntry inum (nameOf (shortname f.path))
    appendChunks inum f.chunks s

/-- The loop of `main` over the files. -/
def addFiles : List HostFile → Image → Option Image
  | [], s => some s
  | f :: fs, s => (s.addFile f).bind (addFiles fs)

/-- Round the size of the root directory up. -/
def fixRoot (s : Image) : Option Image := do
  let din ← s.rinode rootino
  s.winode rootino { din with size := (din.size / bsize + 1) * bsize }

end Image

/-- The block of the superblock. -/
def superblock : Block :=
  ((((((((Bytes.zero _ : Block).wr 0 4 sb.magic).wr 4 4 sb.size).wr 8 4 sb.nblocks).wr 12 4
    sb.ninodes).wr 16 4 sb.nlog).wr 20 4 sb.logstart).wr 24 4 sb.inodestart).wr 28 4 sb.bmapstart

/-- The image of zeros, with its superblock. -/
def blank : Image :=
  Image.wsect ⟨fssize, fun _ => .zero _, 1, nmeta⟩ 1 superblock

/-- The root directory with its first two entries. -/
def root : Option Image := do
  let s ← blank.ialloc tDir
  let s ← s.addEntry rootino (nameOf [46])
  s.addEntry rootino (nameOf [46, 46])

/-- `main`; `none` when it exits with a status other than 0. -/
def main (files : List HostFile) : Option Image := do
  let s ← root
  let s ← s.addFiles files
  let s ← s.fixRoot
  s.balloc s.freeblock

end Mkfs

end Xv6
