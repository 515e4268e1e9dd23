import Xv6.Block.Cache

/-!
# What the block layer leaves alone

The sections of the buffer cache change the device, the buffers and who uses them, and nothing of
the log (`CacheOnly`); inside `commit` the list of logged blocks is emptied and nothing else of the
log changes (`Ends`). Each of these sections panics, if at all, with a message of the buffer cache
(`CacheMsg`).
-/

namespace Xv6

open Conc BlockSt

variable {ls : ℕ}

/-- The step changes nothing of the log. -/
structure CacheOnly (_ : Tid) (s s' : BlockSt) : Prop where
  lh : s'.lh = s.lh
  outstanding : s'.outstanding = s.outstanding
  committing : s'.committing = s.committing
  committer : s'.aux.committer = s.aux.committer
  latest : s'.aux.latest = s.aux.latest

/-- The step leaves the operations and the store alone; it may empty the log. -/
structure Ends (_ : Tid) (s s' : BlockSt) : Prop where
  lh : s'.lh = s.lh ∨ s'.lh = []
  outstanding : s'.outstanding = s.outstanding
  committer : s'.aux.committer = s.aux.committer
  latest : s'.aux.latest = s.aux.latest

/-- The messages with which the buffer cache panics. -/
def CacheMsg (msg : String) : Prop := msg = "bget: no buffers" ∨ msg = "bwrite" ∨ msg = "brelse"

theorem CacheOnly.refl (t : Tid) (s : BlockSt) : CacheOnly t s s := ⟨rfl, rfl, rfl, rfl, rfl⟩

theorem CacheOnly.ends {t : Tid} {s s' : BlockSt} (h : CacheOnly t s s') : Ends t s s' :=
  ⟨.inl h.lh, h.outstanding, h.committer, h.latest⟩

/-! ## The buffer cache -/

theorem bgetRef_meets (dev b : ℕ) (t : Tid) (s : BlockSt) :
    (bgetRef dev b t s).Meets (CacheOnly t s) CacheMsg := by
  unfold bgetRef
  split
  · exact ⟨rfl, rfl, rfl, rfl, rfl⟩
  · split
    · exact ⟨rfl, rfl, rfl, rfl, rfl⟩
    · exact .inl rfl

theorem acquireBuf_meets (i : BufId) (t : Tid) (s : BlockSt) :
    (acquireBuf i t s).Meets (CacheOnly t s) CacheMsg := by
  unfold acquireBuf
  split
  · trivial
  · exact ⟨rfl, rfl, rfl, rfl, rfl⟩

theorem fillBuf_meets (i : BufId) (t : Tid) (s : BlockSt) :
    (fillBuf i t s).Meets (CacheOnly t s) CacheMsg := by
  unfold fillBuf
  split <;> exact ⟨rfl, rfl, rfl, rfl, rfl⟩

theorem checkHolding_meets (i : BufId) {msg : String} (h : CacheMsg msg) (t : Tid) (s : BlockSt) :
    (checkHolding i msg t s).Meets (CacheOnly t s) CacheMsg := by
  unfold checkHolding
  split
  · exact .refl t s
  · exact h

theorem releaseBuf_meets (i : BufId) (t : Tid) (s : BlockSt) :
    (releaseBuf i t s).Meets (CacheOnly t s) CacheMsg := by
  unfold releaseBuf
  split
  · exact ⟨rfl, rfl, rfl, rfl, rfl⟩
  · exact .inr (.inr rfl)

theorem bread_obeys (dev b : ℕ) : (bread dev b).Obeys CacheOnly CacheMsg :=
  .bind (.bind (.lift (bgetRef_meets dev b)) fun i => .bind (.lift (acquireBuf_meets i)) fun _ => trivial)
    fun i => .bind (.lift (fillBuf_meets i)) fun _ => trivial

theorem bwrite_obeys (i : BufId) : (bwrite i).Obeys CacheOnly CacheMsg :=
  .bind (.lift (checkHolding_meets i (.inr (.inl rfl)))) fun _ =>
    .bind (.lift fun _ _ => ⟨rfl, rfl, rfl, rfl, rfl⟩) fun _ => .lift fun _ _ => ⟨rfl, rfl, rfl, rfl, rfl⟩

theorem brelse_obeys (i : BufId) : (brelse i).Obeys CacheOnly CacheMsg :=
  .bind (.lift (releaseBuf_meets i)) fun _ => .lift fun _ _ => ⟨rfl, rfl, rfl, rfl, rfl⟩

theorem bufData_obeys (i : BufId) : (Prog.lift (bufData i)).Obeys CacheOnly CacheMsg :=
  .lift fun t s => .refl t s

theorem setBufData_obeys (i : BufId) (x : Block) :
    (Prog.lift (setBufData i x)).Obeys CacheOnly CacheMsg :=
  .lift fun _ _ => ⟨rfl, rfl, rfl, rfl, rfl⟩

theorem bunpin_obeys (i : BufId) : (Prog.lift (bunpin i)).Obeys CacheOnly CacheMsg :=
  .lift fun _ _ => ⟨rfl, rfl, rfl, rfl, rfl⟩

/-! ## The log -/

theorem getLh_obeys : (Prog.lift getLh).Obeys CacheOnly CacheMsg :=
  .lift fun t s => .refl t s

theorem installLoop_obeys (recovering : Bool) : ∀ (l : List ℕ) (tail : ℕ),
    (installLoop ls recovering tail l).Obeys CacheOnly CacheMsg
  | [], _ => trivial
  | b :: bs, tail => by
    refine .bind (bread_obeys _ _) fun lbuf => .bind (bread_obeys _ _) fun dbuf =>
      .bind (bufData_obeys _) fun _ => .bind (setBufData_obeys _ _) fun _ =>
      .bind (bwrite_obeys _) fun _ => ?_
    have hrest : (do brelse lbuf; brelse dbuf; installLoop ls recovering (tail + 1) bs :
        Prog BlockSt Unit).Obeys CacheOnly CacheMsg :=
      .bind (brelse_obeys _) fun _ => .bind (brelse_obeys _) fun _ => installLoop_obeys _ bs _
    cases recovering with
    | true => exact hrest
    | false => exact .bind (bunpin_obeys _) fun _ => hrest

theorem writeLogLoop_obeys : ∀ (l : List ℕ) (tail : ℕ),
    (writeLogLoop ls tail l).Obeys CacheOnly CacheMsg
  | [], _ => trivial
  | _ :: bs, _ =>
    .bind (bread_obeys _ _) fun _ => .bind (bread_obeys _ _) fun _ =>
      .bind (bufData_obeys _) fun _ => .bind (setBufData_obeys _ _) fun _ =>
      .bind (bwrite_obeys _) fun _ => .bind (brelse_obeys _) fun _ =>
      .bind (brelse_obeys _) fun _ => writeLogLoop_obeys bs _

theorem writeHead_obeys : (writeHead ls).Obeys CacheOnly CacheMsg :=
  .bind (bread_obeys _ _) fun _ => .bind getLh_obeys fun _ => .bind (bufData_obeys _) fun _ =>
    .bind (setBufData_obeys _ _) fun _ => .bind (bwrite_obeys _) fun _ => brelse_obeys _

theorem commit_obeys : (commit ls).Obeys Ends CacheMsg := by
  have ends : ∀ {α : Type} {p : Prog BlockSt α}, p.Obeys CacheOnly CacheMsg →
      p.Obeys Ends CacheMsg := fun h => h.mono fun _ _ _ => CacheOnly.ends
  refine .bind (ends getLh_obeys) fun l => ?_
  split
  · exact .bind (ends (.bind getLh_obeys fun _ => writeLogLoop_obeys _ _)) fun _ =>
      .bind (ends writeHead_obeys) fun _ =>
      .bind (ends (.bind getLh_obeys fun _ => installLoop_obeys _ _ _)) fun _ =>
      .bind (.lift fun _ _ => ⟨.inr rfl, rfl, rfl, rfl⟩) fun _ => ends writeHead_obeys
  · trivial

end Xv6
