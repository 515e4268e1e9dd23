import Xv6.Lib.Free
import Xv6.Param
import Xv6.Block.Bio
import Xv6.Fs.Format
import Mathlib.Data.Finset.Card

/-!
# The state of the file system, and the interface its code runs on

The kernel keeps a table of inodes in use, a table of open files and, for each process, its
descriptors and current directory (`Mem`); all else is on the disk. The code of `fs.c`, `file.c`
and `sysfile.c` is written once, as programs over the interface `Op`: the buffer cache and the log
(`bread`, `log_write`, `brelse`, `begin_op`, `end_op`) and atomic sections over `Mem`. A buffer is
named by its block.

`store` is the meaning of the interface that the buffer cache and the log implement: a map from
block numbers to contents. It has two copies of a block, the contents last logged and the contents
of the buffer, which differ only after stores to a buffer that no `log_write` follows; a `bread`
then finds the buffer, or the logged contents when the buffer has been recycled.
-/

namespace Xv6

open Conc Eff

instance neZero_ninode : NeZero ninode := ⟨by decide⟩

instance neZero_nofile : NeZero nofile := ⟨by decide⟩

instance neZero_nfile : NeZero nfile := ⟨by decide⟩

/-- A pointer into `itable_inode`. -/
abbrev InodeId := Fin ninode

/-- A pointer into `ftable_file`. -/
abbrev FileId := Fin nfile

/-- `struct inode`; the sleep lock is its holder. -/
structure Inode where
  dev : ℕ
  inum : ℕ
  ref : ℕ
  lock : Option Tid
  valid : Bool
  d : Dinode

/-- `FD_NONE`, `FD_PIPE`, `FD_INODE` and `FD_DEVICE`. -/
inductive FdType
  | none
  | pipe
  | inode
  | device
  deriving DecidableEq

/-- A pointer to a pipe, by its page. -/
abbrev PipeId := ℕ

/-- `struct file`. -/
structure File where
  type : FdType
  ref : ℕ
  readable : Bool
  writable : Bool
  pipe : PipeId
  ip : InodeId
  off : ℕ
  major : ℕ

/-- `readopen` and `writeopen` of a pipe. -/
structure PipeEnds where
  readopen : Bool
  writeopen : Bool

/-- What the file system keeps for a process. -/
structure ProcFiles where
  ofile : Fin nofile → Option FileId
  cwd : Option InodeId

/-- Auxiliary variables. -/
structure FsAux where
  /-- How often an inode number has been allocated. -/
  gen : ℕ → ℕ
  /-- For entry `k` of directory `d`, the value of `gen` for the inode it names when the entry
  was written. -/
  stamp : ℕ → ℕ → ℕ

/-- The file system's tables in memory. -/
structure Mem where
  sb : Superblock
  itable : InodeId → Inode
  ftable : FileId → File
  /-- The pages in use as pipes. -/
  pipe : PipeId → Option PipeEnds
  proc : ProcId → ProcFiles
  aux : FsAux

namespace Mem

/-- The tables with an inode replaced. -/
def setInode (m : Mem) (ip : InodeId) (v : Inode) : Mem :=
  { m with itable := fun i => if i = ip then v else m.itable i }

/-- The tables with a file replaced. -/
def setFile (m : Mem) (f : FileId) (v : File) : Mem :=
  { m with ftable := fun i => if i = f then v else m.ftable i }

/-- The tables with a page of a pipe replaced. -/
def setPipe (m : Mem) (a : PipeId) (v : Option PipeEnds) : Mem :=
  { m with pipe := fun i => if i = a then v else m.pipe i }

/-- The tables with the files of a process replaced. -/
def setProc (m : Mem) (p : ProcId) (v : ProcFiles) : Mem :=
  { m with proc := fun i => if i = p then v else m.proc i }

/-- The tables with a descriptor replaced. -/
def setOfile (m : Mem) (p : ProcId) (fd : Fin nofile) (f : Option FileId) : Mem :=
  m.setProc p { m.proc p with ofile := fun i => if i = fd then f else (m.proc p).ofile i }

/-- Auxiliary: inode `inum` is allocated. -/
def bear (m : Mem) (inum : ℕ) : Mem :=
  { m with aux := { m.aux with gen := fun i => if i = inum then m.aux.gen i + 1 else m.aux.gen i } }

/-- Auxiliary: entry `k` of directory `dir` is written and names `inum`. -/
def stampEntry (m : Mem) (dir k inum : ℕ) : Mem :=
  { m with aux := { m.aux with
    stamp := fun d j => if d = dir ∧ j = k then m.aux.gen inum else m.aux.stamp d j } }

end Mem

/-! ## The interface -/

/-- The calls of file-system code. -/
inductive Op : Type → Type 1
  /-- `bread`: the contents of the buffer. -/
  | bread (b : ℕ) : Op Block
  /-- The stores to `bp->data`, and `log_write(bp)`. -/
  | logWrite (b : ℕ) (x : Block) : Op Unit
  /-- Stores to `bp->data` that no `log_write` follows. -/
  | scribble (b : ℕ) (x : Block) : Op Unit
  /-- `brelse`. -/
  | brelse (b : ℕ) : Op Unit
  /-- `begin_op`. -/
  | beginOp : Op Unit
  /-- `end_op`. -/
  | endOp : Op Unit
  /-- An atomic section over the tables. -/
  | mem {β : Type} (f : Action Mem β) : Op β

/-- Programs of the file system. -/
abbrev Fs := Free Op

namespace Fs

variable {α : Type}

/-- `bread`. -/
def bread (b : ℕ) : Fs Block := .call (.bread b)

/-- Stores to `bp->data` and `log_write(bp)`. -/
def logWrite (b : ℕ) (x : Block) : Fs Unit := .call (.logWrite b x)

/-- Stores to `bp->data` alone. -/
def scribble (b : ℕ) (x : Block) : Fs Unit := .call (.scribble b x)

/-- `brelse`. -/
def brelse (b : ℕ) : Fs Unit := .call (.brelse b)

/-- `begin_op`. -/
def beginOp : Fs Unit := .call .beginOp

/-- `end_op`. -/
def endOp : Fs Unit := .call .endOp

/-- An atomic section. -/
def mem (f : Action Mem α) : Fs α := .call (.mem f)

/-- A read of the tables. -/
def gets (f : Mem → α) : Fs α := mem fun _ m => .ok (f m) m

/-- A store to the tables. -/
def modify (f : Mem → Mem) : Fs Unit := mem fun _ m => .ok () (f m)

/-- `panic`. -/
def panic (msg : String) : Fs α := mem fun _ _ => .panic msg

end Fs

/-! ## The block store -/

/-- The state of the file system over a block store. -/
structure FsSt where
  /-- The contents of the buffers. -/
  cached : ℕ → Block
  /-- The contents last logged. -/
  logged : ℕ → Block
  mem : Mem
  /-- `log_outstanding`. -/
  outstanding : ℕ
  /-- Auxiliary: the blocks logged by the operation in progress. -/
  wrote : Finset ℕ
  /-- Auxiliary: the largest number of blocks logged between `begin_op` and `end_op`. -/
  spent : ℕ

namespace FsSt

/-- Block `b` is logged with contents `x`. -/
def write (s : FsSt) (b : ℕ) (x : Block) : FsSt :=
  { s with
    cached := fun c => if c = b then x else s.cached c
    logged := fun c => if c = b then x else s.logged c
    wrote := insert b s.wrote }

/-- The buffer of block `b` alone gets contents `x`. -/
def spoil (s : FsSt) (b : ℕ) (x : Block) : FsSt :=
  { s with cached := fun c => if c = b then x else s.cached c }

/-- The state with other tables. -/
def withMem (s : FsSt) (m : Mem) : FsSt := { s with mem := m }

/-- An operation begins. -/
def opened (s : FsSt) : FsSt := { s with outstanding := s.outstanding + 1, wrote := ∅ }

/-- An operation ends. -/
def closed (s : FsSt) : FsSt :=
  { s with outstanding := s.outstanding - 1, wrote := ∅, spent := max s.spent s.wrote.card }

end FsSt

/-- The outcome of `log_write`. -/
def FsSt.logWrite (s : FsSt) (b : ℕ) (x : Block) : Outcome FsSt Unit :=
  if s.outstanding < 1 then .panic "log_write outside of trans" else .ok () (s.write b x)

/-- The outcome of a section over the tables, as an outcome of the whole state. -/
def liftMem {α : Type} (s : FsSt) : Outcome Mem α → Outcome FsSt α
  | .ok a m => .ok a (s.withMem m)
  | .block => .block
  | .panic msg => .panic msg

/-- The interface over a block store, for thread `t`. -/
def store (t : Tid) : Handler Op FsSt := fun _ op s o =>
  match op with
  | .bread b => ∃ x, (x = s.cached b ∨ x = s.logged b) ∧ o = .ok x s
  | .logWrite b x => o = s.logWrite b x
  | .scribble b x => o = .ok () (s.spoil b x)
  | .brelse _ => o = .ok () s
  | .beginOp => o = .ok () s.opened
  | .endOp => o = .ok () s.closed
  | .mem f => o = liftMem s (f t s.mem)

/-- The block store when no buffer is recycled. -/
def storeRun (t : Tid) ⦃β : Type⦄ (op : Op β) (s : FsSt) : Outcome FsSt β :=
  match op with
  | .bread b => .ok (s.cached b) s
  | .logWrite b x => s.logWrite b x
  | .scribble b x => .ok () (s.spoil b x)
  | .brelse _ => .ok () s
  | .beginOp => .ok () s.opened
  | .endOp => .ok () s.closed
  | .mem f => liftMem s (f t s.mem)

theorem store_storeRun (t : Tid) ⦃β : Type⦄ (op : Op β) (s : FsSt) :
    store t op s (storeRun t op s) := by
  cases op with
  | bread b => exact ⟨s.cached b, .inl rfl, rfl⟩
  | logWrite b x => rfl
  | scribble b x => rfl
  | brelse b => rfl
  | beginOp => rfl
  | endOp => rfl
  | mem f => rfl

end Xv6
