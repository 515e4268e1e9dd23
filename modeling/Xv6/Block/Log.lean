import Xv6.Block.Bio

/-!
# The redo log

`log.c` as programs over the block layer. The header block of the log holds the number of logged
blocks and their home block numbers as 32-bit words (`encodeHeader`, `decodeHeader`); the contents
of the `k`-th logged block go to block `log_start + k + 1`. All of the header is in the first
sector of its block (`decodeHeader_congr`).
-/

namespace Xv6

open Conc BlockSt

/-- `MAXOPBLOCKS`. -/
abbrev maxopblocks : ℕ := 10

/-- `LOGBLOCKS`. -/
abbrev logblocks : ℕ := 30

/-! ## The header block -/

/-- `hb->block[i] = log_lh.block[i]` for the entries of a list, from index `i` on. -/
def writeEntries : ℕ → List ℕ → Block → Block
  | _, [], x => x
  | i, b :: bs, x => writeEntries (i + 1) bs (x.wr (4 + 4 * i) 4 b)

/-- What `write_head` stores in the header block. -/
def encodeHeader (lh : List ℕ) (x : Block) : Block := writeEntries 0 lh (x.wr 0 4 lh.length)

/-- What `read_head` reads from the header block. -/
def decodeHeader (x : Block) : List ℕ :=
  (List.range (x.rd 0 4)).map fun i => x.rd (4 + 4 * i) 4

/-! ## Sections -/

/-- The reads of `log_lh`. -/
def getLh : Action BlockSt (List ℕ) := fun _ s => .ok s.lh s

/-- The stores to `log_lh`. -/
def setLh (l : List ℕ) : Action BlockSt Unit := fun _ s => .ok () { s with lh := l }

/-- `begin_op`: wait for a running commit and for room in the log. -/
def beginOp : Action BlockSt Unit := fun _ s =>
  if s.committing then .block
  else if (s.lh.length : ℤ) + (s.outstanding + 1) * maxopblocks > logblocks then .block
  else .ok () { s with outstanding := s.outstanding + 1 }

/-- The first section of `end_op`; its value is `do_commit`. -/
def endOpEnter : Action BlockSt Bool := fun t s =>
  if s.committing then .panic "log_committing"
  else if s.outstanding - 1 = 0 then
    .ok true { s with outstanding := 0, committing := true, aux := { s.aux with committer := some t } }
  else .ok false { s with outstanding := s.outstanding - 1 }

/-- The last section of `end_op` after a commit. -/
def endOpLeave : Action BlockSt Unit := fun _ s =>
  .ok () { s with committing := false, aux := { s.aux with committer := none } }

/-- `log_write(b)` after the caller's stores `x` to `b->data`, by the holder of the buffer: record
the block number and pin the buffer, unless the block is logged already. -/
def logWrite (i : BufId) (x : Block) : Action BlockSt Unit := fun t s =>
  if (s.buf i).lock ≠ some t ∨ (s.buf i).valid = false then .block
  else if s.lh.length ≥ logblocks then .panic "too big a transaction"
  else if s.outstanding < 1 then .panic "log_write outside of trans"
  else
    let b := (s.buf i).blockno
    let aux := { s.aux with latest := Function.update s.aux.latest b x }
    if b ∈ s.lh then .ok () { s.setBuf i { s.buf i with data := x } with aux := aux }
    else .ok () { s.setBuf i { s.buf i with data := x, refcnt := (s.buf i).refcnt + 1 } with
      lh := s.lh ++ [b]
      aux := { aux with pinned := Function.update s.aux.pinned i true } }

/-! ## Programs -/

section Programs

variable (logStart : ℕ)

/-- The loop of `install_trans` from index `tail` on. -/
def installLoop (recovering : Bool) : ℕ → List ℕ → Prog BlockSt Unit
  | _, [] => return
  | tail, b :: bs => do
    let lbuf ← bread rootdev (logStart + tail + 1)
    let dbuf ← bread rootdev b
    Prog.lift (setBufData dbuf (← Prog.lift (bufData lbuf)))
    bwrite dbuf
    if recovering = false then
      Prog.lift (bunpin dbuf)
    brelse lbuf
    brelse dbuf
    installLoop recovering (tail + 1) bs

/-- `install_trans`: copy committed blocks from the log to their home location. -/
def installTrans (recovering : Bool) : Prog BlockSt Unit := do
  installLoop logStart recovering 0 (← Prog.lift getLh)

/-- `read_head`. -/
def readHead : Prog BlockSt Unit := do
  let buf ← bread rootdev logStart
  Prog.lift (setLh (decodeHeader (← Prog.lift (bufData buf))))
  brelse buf

/-- `write_head`. -/
def writeHead : Prog BlockSt Unit := do
  let buf ← bread rootdev logStart
  let lh ← Prog.lift getLh
  Prog.lift (setBufData buf (encodeHeader lh (← Prog.lift (bufData buf))))
  bwrite buf
  brelse buf

/-- `recover_from_log`. -/
def recoverFromLog : Prog BlockSt Unit := do
  readHead logStart
  installTrans logStart true
  Prog.lift (setLh [])
  writeHead logStart

/-- The loop of `write_log` from index `tail` on. -/
def writeLogLoop : ℕ → List ℕ → Prog BlockSt Unit
  | _, [] => return
  | tail, b :: bs => do
    let tbuf ← bread rootdev (logStart + tail + 1)
    let fbuf ← bread rootdev b
    Prog.lift (setBufData tbuf (← Prog.lift (bufData fbuf)))
    bwrite tbuf
    brelse fbuf
    brelse tbuf
    writeLogLoop (tail + 1) bs

/-- `write_log`: copy modified blocks from the cache to the log. -/
def writeLog : Prog BlockSt Unit := do
  writeLogLoop logStart 0 (← Prog.lift getLh)

/-- `commit`. -/
def commit : Prog BlockSt Unit := do
  if (← Prog.lift getLh).length > 0 then
    writeLog logStart
    writeHead logStart
    installTrans logStart false
    Prog.lift (setLh [])
    writeHead logStart

/-- `end_op`. -/
def endOp : Prog BlockSt Unit := do
  if ← Prog.lift endOpEnter then
    commit logStart
    Prog.lift endOpLeave

end Programs

/-! ## The header reads back -/

theorem rd_writeEntries_of_lt {o k : ℕ} {l : List ℕ} {i : ℕ} {x : Block} (h : o + k ≤ 4 + 4 * i) :
    (writeEntries i l x).rd o k = x.rd o k := by
  induction l generalizing i x with
  | nil => rfl
  | cons b bs ih => rw [writeEntries, ih (by omega), Bytes.rd_wr_of_disjoint _ _ (by omega)]

theorem rd_writeEntries {l : List ℕ} {i j : ℕ} {x : Block} (hl : i + l.length ≤ logblocks)
    (hj : j < l.length) (hb : ∀ b ∈ l, b < 2 ^ 32) :
    (writeEntries i l x).rd (4 + 4 * (i + j)) 4 = l[j] := by
  induction l generalizing i j x with
  | nil => simp at hj
  | cons b bs ih =>
    rw [List.length_cons] at hl hj
    cases j with
    | zero =>
      rw [writeEntries, rd_writeEntries_of_lt (by omega)]
      exact Bytes.rd_wr_of_lt _ (by simp only [logblocks] at hl; omega) (hb b (by simp))
    | succ j =>
      have := ih (i := i + 1) (j := j) (x := x.wr (4 + 4 * i) 4 b) (by omega) (by omega)
        fun c hc => hb c (by simp [hc])
      rwa [show i + 1 + j = i + (j + 1) by omega] at this

/-- What `write_head` stores, `read_head` reads. -/
theorem decodeHeader_encodeHeader {l : List ℕ} (hl : l.length ≤ logblocks)
    (hb : ∀ b ∈ l, b < 2 ^ 32) (x : Block) : decodeHeader (encodeHeader l x) = l := by
  have hn : (encodeHeader l x).rd 0 4 = l.length := by
    rw [encodeHeader, rd_writeEntries_of_lt (by omega)]
    exact Bytes.rd_wr_of_lt _ (by omega) (by simp only [logblocks] at hl; omega)
  refine List.ext_getElem (by simp [decodeHeader, hn]) fun j h₁ h₂ => ?_
  simp only [decodeHeader, List.getElem_map, List.getElem_range, encodeHeader]
  have := rd_writeEntries (i := 0) (x := x.wr 0 4 l.length) (by omega) h₂ hb
  rwa [zero_add] at this

/-- The header is in the first sector. -/
theorem decodeHeader_congr {x y : Block} (h : half x 0 = half y 0)
    (hx : (decodeHeader x).length ≤ logblocks) : decodeHeader x = decodeHeader y := by
  have hg : ∀ i < 512, x.get i = y.get i := fun i hi => by
    rw [← get_half_zero x hi, ← get_half_zero y hi, h]
  have hn : x.rd 0 4 = y.rd 0 4 := Bytes.rd_congr fun i hi => hg _ (by omega)
  simp only [decodeHeader, List.length_map, List.length_range, logblocks] at hx
  simp only [decodeHeader, hn]
  refine List.map_congr_left fun i hi => ?_
  rw [List.mem_range] at hi
  exact Bytes.rd_congr fun j hj => hg _ (by omega)

end Xv6
