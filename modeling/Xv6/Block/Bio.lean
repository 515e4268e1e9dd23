import Xv6.Lib.Prog
import Xv6.Block.Device

/-!
# The buffer cache

`bio.c` as programs of atomic sections over the block-layer state: the device, the buffers with
their sleep locks, and the list of buffers in the order of their last release. Each section is
what the code does under one spinlock, or what the holder of a buffer's sleep lock does to the
buffer alone. A `struct buf *` is the index of the buffer in `bcache_buf`.

The fields of `Aux` are auxiliary: the sections write them and never read them. They record who
holds a reference to a buffer, which buffers `log_write` has pinned, which thread is committing,
and the contents last logged for each block.
-/

namespace Xv6

open Conc

/-- `NBUF`. -/
abbrev nbuf : ℕ := 30

/-- `ROOTDEV`, the only device. -/
abbrev rootdev : ℕ := 1

/-- A pointer to a buffer of the cache. -/
abbrev BufId := Fin nbuf

/-- `struct buf`; the sleep lock is its holder. -/
structure Buf where
  valid : Bool
  dev : ℕ
  blockno : ℕ
  lock : Option Tid
  refcnt : ℕ
  data : Block

/-- Auxiliary variables. -/
structure Aux where
  /-- The threads that got the buffer from `bget` and have not released it. -/
  users : BufId → List Tid
  /-- The buffers pinned by `log_write` and not yet unpinned. -/
  pinned : BufId → Bool
  /-- The thread inside `commit`. -/
  committer : Option Tid
  /-- The contents last logged for a block. -/
  latest : ℕ → Block

/-- The state of the block layer. -/
structure BlockSt where
  disk : Disk
  buf : BufId → Buf
  /-- The list of buffers from `bhead->next`, the most recently released, to `bhead->prev`. -/
  lru : List BufId
  /-- `log_outstanding`. -/
  outstanding : ℤ
  /-- `log_committing`. -/
  committing : Bool
  /-- `log_lh.block[0]`, ..., `log_lh.block[log_lh.n - 1]`. -/
  lh : List ℕ
  aux : Aux

namespace BlockSt

/-- The state with buffer `i` replaced. -/
def setBuf (s : BlockSt) (i : BufId) (b : Buf) : BlockSt :=
  { s with buf := Function.update s.buf i b }

/-- The state with the users of buffer `i` replaced. -/
def setUsers (s : BlockSt) (i : BufId) (us : List Tid) : BlockSt :=
  { s with aux := { s.aux with users := Function.update s.aux.users i us } }

/-- Buffer `i` carries block `b` of device `dev`. -/
def Carries (s : BlockSt) (i : BufId) (dev b : ℕ) : Prop :=
  (s.buf i).dev = dev ∧ (s.buf i).blockno = b

instance (s : BlockSt) (i : BufId) (dev b : ℕ) : Decidable (s.Carries i dev b) :=
  inferInstanceAs (Decidable (_ ∧ _))

end BlockSt

open BlockSt

/-! ## Sections -/

/-- `bget` under `bcache_lock`: the buffer of the block if it is cached, else the least recently
released buffer without references, recycled. -/
def bgetRef (dev b : ℕ) : Action BlockSt BufId := fun t s =>
  match s.lru.find? fun i => s.Carries i dev b with
  | some i =>
    .ok i ((s.setBuf i { s.buf i with refcnt := (s.buf i).refcnt + 1 }).setUsers i
      (t :: s.aux.users i))
  | none =>
    match s.lru.reverse.find? fun i => (s.buf i).refcnt == 0 with
    | some i =>
      .ok i ((s.setBuf i { s.buf i with dev := dev, blockno := b, valid := false, refcnt := 1 }).setUsers
        i [t])
    | none => .panic "bget: no buffers"

/-- `acquiresleep(&b->lock)`. -/
def acquireBuf (i : BufId) : Action BlockSt Unit := fun t s =>
  match (s.buf i).lock with
  | some _ => .block
  | none => .ok () (s.setBuf i { s.buf i with lock := some t })

/-- `if(!b->valid) { virtio_disk_rw(b, 0); b->valid = 1; }`, by the holder of the buffer. -/
def fillBuf (i : BufId) : Action BlockSt Unit := fun _ s => .ok () <|
  if (s.buf i).valid then s
  else s.setBuf i { s.buf i with valid := true, data := blockAt s.disk (s.buf i).blockno }

/-- The reads of `b->data` by the holder of the buffer. -/
def bufData (i : BufId) : Action BlockSt Block := fun _ s => .ok (s.buf i).data s

/-- The stores to `b->data` by the holder of the buffer. -/
def setBufData (i : BufId) (x : Block) : Action BlockSt Unit := fun _ s =>
  .ok () (s.setBuf i { s.buf i with data := x })

/-- `if(!holdingsleep(&b->lock)) panic(msg)`. -/
def checkHolding (i : BufId) (msg : String) : Action BlockSt Unit := fun t s =>
  if (s.buf i).lock = some t then .ok () s else .panic msg

/-- One turn of the loop of `virtio_disk_rw(b, 1)`: sector `k` of the buffer goes to the device. -/
def diskWrite (i : BufId) (k : ℕ) : Action BlockSt Unit := fun _ s =>
  .ok () { s with disk := writeSector s.disk (s.buf i).blockno k (half (s.buf i).data k) }

/-- `brelse` up to `releasesleep`. -/
def releaseBuf (i : BufId) : Action BlockSt Unit := fun t s =>
  if (s.buf i).lock = some t then .ok () (s.setBuf i { s.buf i with lock := none })
  else .panic "brelse"

/-- `brelse` under `bcache_lock`: drop the reference, and move the buffer to the front when it was
the last. -/
def bput (i : BufId) : Action BlockSt Unit := fun t s =>
  .ok () { (s.setBuf i { s.buf i with refcnt := (s.buf i).refcnt - 1 }).setUsers i
      ((s.aux.users i).erase t) with
    lru := if (s.buf i).refcnt - 1 = 0 then i :: s.lru.erase i else s.lru }

/-- `bunpin`. -/
def bunpin (i : BufId) : Action BlockSt Unit := fun _ s =>
  .ok () { s.setBuf i { s.buf i with refcnt := (s.buf i).refcnt - 1 } with
    aux := { s.aux with pinned := Function.update s.aux.pinned i false } }

/-! ## Programs -/

/-- `bget`: the buffer of a block, locked. -/
def bget (dev b : ℕ) : Prog BlockSt BufId := do
  let i ← Prog.lift (bgetRef dev b)
  Prog.lift (acquireBuf i)
  return i

/-- `bread`: the buffer of a block, locked, with the contents of the block. -/
def bread (dev b : ℕ) : Prog BlockSt BufId := do
  let i ← bget dev b
  Prog.lift (fillBuf i)
  return i

/-- `bwrite`: the buffer goes to the device, one sector after the other. -/
def bwrite (i : BufId) : Prog BlockSt Unit := do
  Prog.lift (checkHolding i "bwrite")
  Prog.lift (diskWrite i 0)
  Prog.lift (diskWrite i 1)

/-- `brelse`. -/
def brelse (i : BufId) : Prog BlockSt Unit := do
  Prog.lift (releaseBuf i)
  Prog.lift (bput i)

/-- The buffers as `binit` leaves them: `bcache_buf[NBUF-1]` first in the list, no block read. -/
def binit (d : Disk) : BlockSt where
  disk := d
  buf _ := ⟨false, 0, 0, none, 0, .zero _⟩
  lru := (List.finRange nbuf).reverse
  outstanding := 0
  committing := false
  lh := []
  aux := ⟨fun _ => [], fun _ => false, none, blockAt d⟩

end Xv6
