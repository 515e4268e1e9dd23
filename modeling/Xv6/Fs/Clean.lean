import Xv6.Mkfs.Boot
import Xv6.Fs.Awake

/-!
# Unlogged stores to buffers

The buffers of a state are clean when each has the contents last logged. Every call keeps them so,
except a `write` whose `copyin` stops in the middle of a block: its first bytes stay in the buffer
and are not logged.
-/

namespace Xv6

open Conc Eff Vol

/-- Every buffer has the contents last logged. -/
def BufsClean (s : FsSt) : Prop := ∀ b, s.cached b = s.logged b

namespace Fs

variable {α β : Type} {t : Tid} {s : FsSt} {p : ProcId} {ip dp : InodeId} {b : ℕ}

/-- A program keeps the buffers clean. -/
abbrev Tidy (t : Tid) (q : Fs α) : Prop := Eff.Stable (store t) BufsClean q

/-! ## Calls of the block store -/

theorem tidy_mem (f : Action Mem α) : Tidy t (mem f) := by
  refine .call fun s o hs ho => ?_
  obtain rfl := ho
  cases f t s.mem with
  | ok a m => exact hs
  | block => trivial
  | panic msg => trivial

theorem tidy_gets (f : Mem → α) : Tidy t (gets f) := tidy_mem _

theorem tidy_modify (f : Mem → Mem) : Tidy t (modify f) := tidy_mem _

theorem tidy_panic (msg : String) : Tidy t (panic (α := α) msg) := tidy_mem _

theorem tidy_bread : Tidy t (bread b) := by
  refine .call fun s o hs ho => ?_
  obtain ⟨x, -, rfl⟩ := ho
  exact hs

theorem tidy_logWrite {x : Block} : Tidy t (logWrite b x) := by
  refine .call fun s o hs ho => ?_
  obtain rfl := ho
  unfold FsSt.logWrite
  split
  · trivial
  · intro c
    simp only [FsSt.write, hs c]

theorem tidy_brelse : Tidy t (brelse b) := by
  refine .call fun s o hs ho => ?_
  obtain rfl := ho
  exact hs

theorem tidy_beginOp : Tidy t beginOp := by
  refine .call fun s o hs ho => ?_
  obtain rfl := ho
  exact hs

theorem tidy_endOp : Tidy t endOp := by
  refine .call fun s o hs ho => ?_
  obtain rfl := ho
  exact hs

/-- A plain program logs what it stores. -/
theorem Plain.tidy {q : Fs α} (h : Plain t q) : Tidy t q := by
  induction q with
  | ret a => exact .pure a
  | op e k ih =>
    have he : Tidy t (Free.call e) := by
      cases e with
      | mem f => exact tidy_mem f
      | bread b => exact tidy_bread
      | logWrite b x => exact tidy_logWrite
      | scribble b x => exact h.1.elim
      | brelse b => exact tidy_brelse
      | beginOp => exact tidy_beginOp
      | endOp => exact tidy_endOp
    exact .bind he fun b => ih b (h.2 b)

/-! ## Blocks and inodes -/

theorem tidy_dinode : Tidy t (dinode ip) := tidy_gets _

theorem tidy_setDinode {f : Dinode → Dinode} : Tidy t (setDinode ip f) := tidy_modify _

theorem tidy_iget {dev inum : ℕ} : Tidy t (iget dev inum) := tidy_mem _

theorem tidy_iupdate : Tidy t (iupdate ip) := plain_iupdate.tidy

theorem tidy_iallocLoop {sb : Superblock} {dev type : ℕ} {l : List ℕ} :
    Tidy t (iallocLoop sb dev type l) := by
  induction l with
  | nil => exact .pure none
  | cons inum l ih =>
    exact .bind tidy_bread fun _ => .ite
      (.bind tidy_logWrite fun _ => .bind tidy_brelse fun _ => .bind (tidy_modify _) fun _ =>
        .bind tidy_iget fun _ => .pure _)
      (.bind tidy_brelse fun _ => ih)

theorem tidy_ialloc {dev type : ℕ} : Tidy t (ialloc dev type) :=
  .bind (tidy_gets _) fun _ => tidy_iallocLoop

theorem tidy_ilock : Tidy t (ilock ip) :=
  .bind (tidy_mem _) fun _ => .bind (tidy_gets _) fun _ => .ite
    (.bind (tidy_gets _) fun _ => .bind tidy_bread fun _ => .bind tidy_setDinode fun _ =>
      .bind tidy_brelse fun _ => .bind (tidy_modify _) fun _ => .ite (tidy_panic _) (.pure _))
    (.pure _)

theorem tidy_iunlock : Tidy t (iunlock ip) := tidy_mem _

theorem tidy_iput : Tidy t (iput ip) := plain_iput.tidy

theorem tidy_iunlockput : Tidy t (iunlockput ip) := plain_iunlockput.tidy

theorem tidy_ireclaimLoop {sb : Superblock} {l : List ℕ} : Tidy t (ireclaimLoop sb l) := by
  induction l with
  | nil => exact .pure _
  | cons inum l ih =>
    exact .bind tidy_bread fun _ => .ite
      (.bind tidy_iget fun _ => .bind tidy_brelse fun _ => .bind tidy_beginOp fun _ =>
        .bind tidy_ilock fun _ => .bind tidy_iunlock fun _ => .bind tidy_iput fun _ =>
        .bind tidy_endOp fun _ => ih)
      (.bind tidy_brelse fun _ => ih)

theorem tidy_fsinit : Tidy t fsinit :=
  .bind tidy_bread fun _ => .bind (tidy_modify _) fun _ => .bind tidy_brelse fun _ =>
    .ite (tidy_panic _) (.bind (tidy_gets _) fun _ => tidy_ireclaimLoop)

/-! ## Reads and writes -/

theorem tidy_readi {dst : Dst} {off n : ℕ} : Tidy t (readi ip dst off n) := plain_readi.tidy

/-- No copy of at most a block from the first `n` bytes of a source stops after some of its bytes. -/
def Src.Whole (src : Src) (n : ℕ) : Prop :=
  ∀ i len, i + len ≤ n → len ≤ bsize → (eitherCopyin src i len).2 = true ∨ (eitherCopyin src i len).1 = 0

theorem Src.Readable.whole {src : Src} {n : ℕ} (h : src.Readable n) : src.Whole n :=
  fun i len hi _ => .inl (h i len hi)

/-- What a program does with a block that it reads depends on the contents of its buffer. -/
theorem tidy_bread_bind {k : Block → Fs α}
    (h : ∀ s, BufsClean s → wp (store t) (fun _ => True) (k (s.cached b)) (fun _ s' => BufsClean s') s) :
    Tidy t (bread b >>= k) := by
  refine fun s hs => wp_bind (wp_call fun o ho => ?_)
  obtain ⟨x, hx, rfl⟩ := ho
  obtain rfl : x = s.cached b := hx.elim id fun hx => hx.trans (hs b).symm
  exact h s hs

theorem tidy_writeiLoop {src : Src} {n k tot off : ℕ} (hsrc : src.Whole n) :
    Tidy t (writeiLoop ip src n k tot off) := by
  induction k generalizing tot off with
  | zero => exact .pure _
  | succ k ih =>
    unfold writeiLoop
    by_cases htot : tot < n
    · rw [if_pos htot]
      refine .bind plain_bmap.tidy fun addr => .ite (.pure _) (tidy_bread_bind fun s hs => ?_)
      have hm : tot + min (n - tot) (bsize - off % bsize) ≤ n := by omega
      rcases hsrc tot _ hm (by omega) with hall | hnone
      · simp only [hall]
        exact (Eff.Stable.bind tidy_logWrite fun _ => .bind tidy_brelse fun _ => ih) s hs
      · -- nothing is copied, and the buffer stays as it is
        simp only [hnone, Bytes.blit_zero]
        split
        · exact (Eff.Stable.bind tidy_logWrite fun _ => .bind tidy_brelse fun _ => ih) s hs
        · refine wp_bind (wp_call fun o ho => ?_)
          obtain rfl := ho
          refine (Eff.Stable.bind tidy_brelse fun _ => .pure _) _ fun c => ?_
          show (if c = addr then s.cached addr else s.cached c) = s.logged c
          split
          · rename_i hc
            rw [hc, hs]
          · exact hs c
    · rw [if_neg htot]
      exact .pure _

theorem tidy_writei {src : Src} {off n : ℕ} (hsrc : src.Whole n) : Tidy t (writei ip src off n) :=
  .bind tidy_dinode fun _ => .ite (.pure _) (.ite (.pure _) (.bind (tidy_writeiLoop hsrc) fun _ =>
    .bind tidy_setDinode fun _ => .bind tidy_iupdate fun _ => .pure _))

theorem tidy_writei_kernel {f : ℕ → UInt8} {off n : ℕ} : Tidy t (writei ip (.kernel f) off n) :=
  tidy_writei (Src.readable_kernel f n).whole

/-! ## Directories and paths -/

theorem tidy_readDirent {off : ℕ} : Tidy t (readDirent dp off) := plain_readDirent.tidy

theorem tidy_dirlookupLoop {name : Name} {l : List ℕ} : Tidy t (dirlookupLoop dp name l) := by
  induction l with
  | nil => exact .pure _
  | cons off l ih =>
    refine .bind tidy_readDirent fun o => ?_
    cases o with
    | none => exact tidy_panic _
    | some de =>
      exact .ite (.bind (tidy_gets _) fun _ => .bind tidy_iget fun _ => .pure _) ih

theorem tidy_dirlookup {name : Name} : Tidy t (dirlookup dp name) :=
  .bind tidy_dinode fun _ => .ite (tidy_panic _) tidy_dirlookupLoop

theorem tidy_dirlink {name : Name} {inum : ℕ} : Tidy t (dirlink dp name inum) := by
  refine .bind tidy_dirlookup fun o => ?_
  cases o with
  | some x => exact .bind tidy_iput fun _ => .pure _
  | none =>
    exact .bind tidy_dinode fun _ => .bind plain_dirlinkLoop.tidy fun _ => .bind tidy_writei_kernel fun _ =>
      .ite (.pure _) (.bind (tidy_modify _) fun _ => .pure _)

theorem tidy_namexLoop {parent : Bool} {k : ℕ} {path : Path} {name : Name} :
    Tidy t (namexLoop parent k ip path name) := by
  induction k generalizing ip path name with
  | zero => exact .pure _
  | succ k ih =>
    unfold namexLoop
    split
    · exact .ite (.bind tidy_iput fun _ => .pure _) (.pure _)
    · refine .bind tidy_ilock fun _ => .bind tidy_dinode fun _ => .ite
        (.bind tidy_iunlockput fun _ => .pure _) (.ite (.bind tidy_iunlock fun _ => .pure _)
          (.bind tidy_dirlookup fun o => ?_))
      cases o with
      | none => exact .bind tidy_iunlockput fun _ => .pure _
      | some x => exact .bind tidy_iunlockput fun _ => ih

theorem tidy_namex {path : Path} {parent : Bool} : Tidy t (namex p path parent) :=
  .ite (.bind tidy_iget fun _ => tidy_namexLoop) (.bind (tidy_mem _) fun _ => tidy_namexLoop)

theorem tidy_namei {path : Path} : Tidy t (namei p path) := .bind tidy_namex fun _ => .pure _

theorem tidy_nameiparent {path : Path} : Tidy t (nameiparent p path) := tidy_namex

/-! ## Files -/

variable {f : FileId} {path : Option Path}

theorem tidy_fileclose : Tidy t (fileclose f) := by
  refine .bind (tidy_mem _) fun o => ?_
  cases o with
  | none => exact .pure _
  | some v =>
    exact .ite (tidy_modify _)
      (.ite (.bind tidy_beginOp fun _ => .bind tidy_iput fun _ => tidy_endOp) (.pure _))

theorem tidy_filestat {ok : Bool} : Tidy t (filestat f ok) :=
  .bind (tidy_gets _) fun _ => .ite (.bind tidy_ilock fun _ => .bind (tidy_gets _) fun _ =>
    .bind tidy_iunlock fun _ => .pure _) (.pure _)

theorem tidy_fileread {dst : Dst} {n dev : ℤ} : Tidy t (fileread f dst n dev) := by
  refine .bind (tidy_gets _) fun v => .ite (.pure _) ?_
  have hend : ∀ r : ℤ × List UInt8, Tidy t (do iunlock v.ip; return r) := fun r =>
    .bind tidy_iunlock fun _ => .pure _
  split
  · exact .pure _
  · exact .pure _
  · exact .bind tidy_ilock fun _ => .bind tidy_readi fun r =>
      .ite (.bind (tidy_modify _) fun _ => hend r) (hend r)
  · exact tidy_panic _

/-- The rest of a source. -/
theorem Src.Whole.drop {u : UserMem} {va n m i : ℕ} (h : (Src.user u va).Whole n) (hi : i + m ≤ n) :
    (Src.user u ((va + i) % 2 ^ 32)).Whole m := by
  intro j len hj hlen
  have := h (i + j) len (by omega) hlen
  simpa only [eitherCopyin, Nat.mod_add_mod, Nat.add_assoc] using this

theorem tidy_filewriteLoop {u : UserMem} {va n k i : ℕ} (hsrc : (Src.user u va).Whole n) :
    Tidy t (filewriteLoop f ip u va n k i) := by
  induction k generalizing i with
  | zero => exact .pure _
  | succ k ih =>
    unfold filewriteLoop
    by_cases hi : i < n
    · rw [if_pos hi]
      refine .bind tidy_beginOp fun _ => .bind tidy_ilock fun _ => .bind (tidy_gets _) fun _ =>
        .bind (tidy_writei (hsrc.drop (by omega))) fun r => ?_
      have hend : Tidy t (do
          iunlock ip
          endOp
          if r = ((min (n - i) 3072 : ℕ) : ℤ) then
            filewriteLoop f ip u va n k (i + min (n - i) 3072)
          else
            return i) :=
        .bind tidy_iunlock fun _ => .bind tidy_endOp fun _ => .ite ih (.pure _)
      exact .ite (.bind (tidy_modify _) fun _ => hend) hend
    · rw [if_neg hi]
      exact .pure _

theorem tidy_filewrite {u : UserMem} {va : ℕ} {n dev : ℤ} (hsrc : (Src.user u va).Whole n.toNat) :
    Tidy t (filewrite f u va n dev) := by
  refine .bind (tidy_gets _) fun v => .ite (.pure _) ?_
  split
  · exact .pure _
  · exact .pure _
  · exact .bind (tidy_filewriteLoop hsrc) fun _ => .pure _
  · exact tidy_panic _

/-! ## System calls -/

theorem tidy_filealloc : Tidy t filealloc := tidy_mem _

theorem tidy_fdalloc : Tidy t (fdalloc p f) := tidy_mem _

theorem tidy_endOp_return {r : ℤ} : Tidy t (do endOp; return r) := .bind tidy_endOp fun _ => .pure _

theorem tidy_iunlockput_return {r : ℤ} : Tidy t (do iunlockput ip; endOp; return r) :=
  .bind tidy_iunlockput fun _ => tidy_endOp_return

theorem tidy_linkBad : Tidy t (linkBad ip) :=
  .bind tidy_ilock fun _ => .bind tidy_setDinode fun _ => .bind tidy_iupdate fun _ =>
    tidy_iunlockput_return

theorem tidy_sysLink {old new : Option Path} : Tidy t (sysLink p old new) := by
  unfold sysLink
  split
  · refine .bind tidy_beginOp fun _ => .bind tidy_namei fun o => ?_
    cases o with
    | none => exact tidy_endOp_return
    | some ip =>
      refine .bind tidy_ilock fun _ => .bind tidy_dinode fun _ => .ite tidy_iunlockput_return
        (.bind tidy_setDinode fun _ => .bind tidy_iupdate fun _ => .bind tidy_iunlock fun _ =>
          .bind tidy_nameiparent fun o => ?_)
      cases o with
      | none => exact tidy_linkBad
      | some x =>
        exact .bind tidy_ilock fun _ => .bind (tidy_gets _) fun _ => .ite
          (.bind tidy_iunlockput fun _ => tidy_linkBad) (.bind tidy_dirlink fun _ => .ite
            (.bind tidy_iunlockput fun _ => tidy_linkBad)
            (.bind tidy_iunlockput fun _ => .bind tidy_iput fun _ => tidy_endOp_return))
  · exact .pure _

theorem tidy_isdiremptyLoop {l : List ℕ} : Tidy t (isdiremptyLoop dp l) := by
  induction l with
  | nil => exact .pure _
  | cons off l ih =>
    refine .bind tidy_readDirent fun o => ?_
    cases o with
    | none => exact tidy_panic _
    | some de => exact .ite (.pure _) ih

theorem tidy_unlinkEntry {off : ℕ} : Tidy t (unlinkEntry dp ip off) := by
  have hend : Tidy t (do
      iunlockput dp
      setNlink ip fun n => n + (2 ^ 16 - 1)
      iupdate ip
      iunlockput ip
      endOp
      return (0 : ℤ)) :=
    .bind tidy_iunlockput fun _ => .bind tidy_setDinode fun _ => .bind tidy_iupdate fun _ =>
      tidy_iunlockput_return
  exact .bind tidy_writei_kernel fun _ => .ite (tidy_panic _) (.bind tidy_dinode fun _ =>
    .ite (.bind tidy_setDinode fun _ => .bind tidy_iupdate fun _ => hend) hend)

theorem tidy_sysUnlink : Tidy t (sysUnlink p path) := by
  unfold sysUnlink
  cases path with
  | none => exact .pure _
  | some path =>
    refine .bind tidy_beginOp fun _ => .bind tidy_nameiparent fun o => ?_
    cases o with
    | none => exact tidy_endOp_return
    | some x =>
      refine .bind tidy_ilock fun _ => .ite tidy_iunlockput_return (.bind tidy_dirlookup fun o => ?_)
      cases o with
      | none => exact tidy_iunlockput_return
      | some y =>
        exact .bind tidy_ilock fun _ => .bind tidy_dinode fun _ => .ite (tidy_panic _) (.ite
          (.bind (.bind tidy_dinode fun _ => tidy_isdiremptyLoop) fun _ => .ite tidy_unlinkEntry
            (.bind tidy_iunlockput fun _ => tidy_iunlockput_return)) tidy_unlinkEntry)

theorem tidy_createFail : Tidy t (createFail dp ip) :=
  .bind tidy_setDinode fun _ => .bind tidy_iupdate fun _ => .bind tidy_iunlockput fun _ =>
    .bind tidy_iunlockput fun _ => .pure _

theorem tidy_createEnter {name : Name} {type inum : ℕ} : Tidy t (createEnter dp ip name type inum) := by
  have hend : Tidy t (do iunlockput dp; return some ip) := .bind tidy_iunlockput fun _ => .pure _
  exact .bind tidy_dirlink fun _ => .ite tidy_createFail
    (.ite (.bind tidy_setDinode fun _ => .bind tidy_iupdate fun _ => hend) hend)

theorem tidy_createNew {name : Name} {type major minor : ℕ} :
    Tidy t (createNew dp ip name type major minor) :=
  .bind tidy_ilock fun _ => .bind tidy_setDinode fun _ => .bind tidy_iupdate fun _ =>
    .bind (tidy_gets _) fun _ => .ite (.bind tidy_dirlink fun _ => .ite tidy_createFail
      (.bind tidy_dirlink fun _ => .ite tidy_createFail tidy_createEnter)) tidy_createEnter

theorem tidy_create {path : Path} {type major minor : ℕ} :
    Tidy t (create p path type major minor) := by
  refine .bind tidy_nameiparent fun o => ?_
  cases o with
  | none => exact .pure _
  | some x =>
    refine .bind tidy_ilock fun _ => .bind tidy_dirlookup fun o => ?_
    cases o with
    | some y =>
      exact .bind tidy_iunlockput fun _ => .bind tidy_ilock fun _ => .bind tidy_dinode fun _ =>
        .ite (.pure _) (.bind tidy_iunlockput fun _ => .pure _)
    | none =>
      refine .bind (tidy_gets _) fun _ => .bind tidy_ialloc fun o => ?_
      cases o with
      | none => exact .bind tidy_iunlockput fun _ => .pure _
      | some ip => exact tidy_createNew

theorem tidy_openFile {omode : ℕ} : Tidy t (openFile p ip omode) := by
  refine .bind tidy_dinode fun _ => .ite tidy_iunlockput_return (.bind tidy_filealloc fun o => ?_)
  cases o with
  | none => exact tidy_iunlockput_return
  | some f =>
    refine .bind tidy_fdalloc fun o => ?_
    cases o with
    | none => exact .bind tidy_fileclose fun _ => tidy_iunlockput_return
    | some fd =>
      have hend : Tidy t (do iunlock ip; endOp; return ((fd : ℕ) : ℤ)) :=
        .bind tidy_iunlock fun _ => tidy_endOp_return
      exact .bind (tidy_modify _) fun _ => .ite (.bind plain_itrunc.tidy fun _ => hend) hend

theorem tidy_sysOpen {omode : ℕ} : Tidy t (sysOpen p path omode) := by
  unfold sysOpen
  cases path with
  | none => exact .pure _
  | some path =>
    refine .bind tidy_beginOp fun _ => .ite (.bind tidy_create fun o => ?_) (.bind tidy_namei fun o => ?_)
    · cases o with
      | none => exact tidy_endOp_return
      | some ip => exact tidy_openFile
    · cases o with
      | none => exact tidy_endOp_return
      | some ip =>
        exact .bind tidy_ilock fun _ => .bind tidy_dinode fun _ => .ite tidy_iunlockput_return
          tidy_openFile

theorem tidy_makeNode {type major minor : ℕ} : Tidy t (makeNode p path type major minor) := by
  refine .bind tidy_beginOp fun _ => ?_
  cases path with
  | none => exact tidy_endOp_return
  | some path =>
    refine .bind tidy_create fun o => ?_
    cases o with
    | none => exact tidy_endOp_return
    | some ip => exact tidy_iunlockput_return

theorem tidy_iputCwd : Tidy t (iputCwd p) := by
  refine .bind (tidy_gets _) fun o => ?_
  cases o with
  | none => exact .pure _
  | some ip => exact tidy_iput

theorem tidy_sysChdir : Tidy t (sysChdir p path) := by
  refine .bind tidy_beginOp fun _ => ?_
  cases path with
  | none => exact tidy_endOp_return
  | some path =>
    refine .bind tidy_namei fun o => ?_
    cases o with
    | none => exact tidy_endOp_return
    | some ip =>
      exact .bind tidy_ilock fun _ => .bind tidy_dinode fun _ => .ite tidy_iunlockput_return
        (.bind tidy_iunlock fun _ => .bind tidy_iputCwd fun _ => .bind tidy_endOp fun _ =>
          .bind (tidy_modify _) fun _ => .pure _)

theorem tidy_pipealloc {page : Option PipeId} : Tidy t (pipealloc page) := by
  refine .bind tidy_filealloc fun o => ?_
  cases o with
  | none => exact .pure _
  | some f₀ =>
    refine .bind tidy_filealloc fun o => ?_
    cases o with
    | none => exact .bind tidy_fileclose fun _ => .pure _
    | some f₁ =>
      cases page with
      | none => exact .bind tidy_fileclose fun _ => .bind tidy_fileclose fun _ => .pure _
      | some a =>
        exact .bind (tidy_modify _) fun _ => .bind (tidy_modify _) fun _ =>
          .bind (tidy_modify _) fun _ => .pure _

theorem tidy_sysPipe {page : Option PipeId} {ok : Bool} : Tidy t (sysPipe p page ok) := by
  have hclose : ∀ f g : FileId, Tidy t (do fileclose f; fileclose g; return (-1 : ℤ)) := fun _ _ =>
    .bind tidy_fileclose fun _ => .bind tidy_fileclose fun _ => .pure _
  refine .bind tidy_pipealloc fun o => ?_
  cases o with
  | none => exact .pure _
  | some x =>
    refine .bind tidy_fdalloc fun o => ?_
    cases o with
    | none => exact hclose _ _
    | some fd₀ =>
      refine .bind tidy_fdalloc fun o => ?_
      cases o with
      | none => exact .bind (tidy_modify _) fun _ => hclose _ _
      | some fd₁ =>
        exact .ite (.pure _) (.bind (tidy_modify _) fun _ => .bind (tidy_modify _) fun _ => hclose _ _)

theorem tidy_loadseg {va offset sz k i : ℕ} : Tidy t (loadseg ip va offset sz k i) := by
  induction k generalizing i with
  | zero => exact .pure _
  | succ k ih =>
    unfold loadseg
    exact .ite (.bind tidy_readi fun _ => .ite (.pure _) ih) (.pure _)

theorem tidy_loadSegments {vm : ℕ → Bool} {phoff : ℕ} {l : List ℕ} :
    Tidy t (loadSegments ip vm phoff l) := by
  induction l with
  | nil => exact .pure _
  | cons i l ih =>
    exact .bind tidy_readi fun _ => .ite (.pure _) (.ite ih (.ite (.pure _) (.ite (.pure _)
      (.ite (.pure _) (.bind tidy_loadseg fun _ => .ite ih (.pure _))))))

theorem tidy_loadElf {pt : Bool} {vm : ℕ → Bool} : Tidy t (loadElf ip pt vm) :=
  .bind tidy_readi fun _ => .ite (.pure _) (.ite (.pure _) (.ite (.pure _) tidy_loadSegments))

theorem tidy_sysExec {pt : Bool} {vm : ℕ → Bool} {ret : ℤ} : Tidy t (sysExec p path pt vm ret) := by
  cases path with
  | none => exact .pure _
  | some path =>
    refine .bind tidy_beginOp fun _ => .bind tidy_namei fun o => ?_
    cases o with
    | none => exact tidy_endOp_return
    | some ip => exact .bind tidy_ilock fun _ => .bind tidy_loadElf fun _ => tidy_iunlockput_return

theorem tidy_forkLoop {np : ProcId} {l : List (Fin nofile)} : Tidy t (forkLoop p np l) := by
  induction l with
  | nil => exact .pure _
  | cons fd l ih =>
    refine .bind (tidy_gets _) fun o => ?_
    cases o with
    | none => exact ih
    | some f => exact .bind (tidy_mem _) fun _ => .bind (tidy_modify _) fun _ => ih

theorem tidy_exitLoop {l : List (Fin nofile)} : Tidy t (exitLoop p l) := by
  induction l with
  | nil => exact .pure _
  | cons fd l ih =>
    refine .bind (tidy_gets _) fun o => ?_
    cases o with
    | none => exact ih
    | some f => exact .bind tidy_fileclose fun _ => .bind (tidy_modify _) fun _ => ih

/-- No copy from the buffer of a `write` stops in the middle of a block. -/
def Call.Whole : Call → Prop
  | .write _ u va n _ => (Src.user u va).Whole n.toNat
  | _ => True

/-- The calls that take a descriptor. -/
theorem tidy_argfd_bind {fd : ℤ} {k : Option (Fin nofile × FileId) → Fs ℤ} (hn : Tidy t (k none))
    (hs : ∀ fd f, Tidy t (k (some (fd, f)))) : Tidy t (argfd p fd >>= k) :=
  .bind (tidy_gets _) fun o => by
    cases o with
    | none => exact hn
    | some x => exact hs x.1 x.2

/-- A call keeps the buffers clean. -/
theorem tidy_call {c : Call} (hc : c.Whole) : Tidy t (c.body p) := by
  cases c with
  | «open» path omode => exact tidy_sysOpen
  | close fd =>
    exact tidy_argfd_bind (.pure _) fun _ _ => .bind (tidy_modify _) fun _ => .bind tidy_fileclose fun _ =>
      .pure _
  | dup fd =>
    refine tidy_argfd_bind (.pure _) fun _ _ => .bind tidy_fdalloc fun o => ?_
    cases o with
    | none => exact .pure _
    | some fd => exact .bind (tidy_mem _) fun _ => .pure _
  | read fd w va n dev =>
    exact tidy_argfd_bind (.pure _) fun _ _ => .bind tidy_fileread fun _ => .pure _
  | write fd u va n dev => exact tidy_argfd_bind (.pure _) fun _ _ => tidy_filewrite hc
  | fstat fd ok => exact tidy_argfd_bind (.pure _) fun _ _ => .bind tidy_filestat fun _ => .pure _
  | link old new => exact tidy_sysLink
  | unlink path => exact tidy_sysUnlink
  | mkdir path => exact tidy_makeNode
  | mknod path major minor => exact tidy_makeNode
  | chdir path => exact tidy_sysChdir
  | pipe page ok => exact tidy_sysPipe
  | exec path pt vm ret => exact tidy_sysExec
  | fork np =>
    exact .bind tidy_forkLoop fun _ => .bind (tidy_mem _) fun _ => .bind (tidy_modify _) fun _ => .pure _
  | exit =>
    exact .bind tidy_exitLoop fun _ => .bind tidy_beginOp fun _ => .bind tidy_iputCwd fun _ =>
      .bind tidy_endOp fun _ => .bind (tidy_modify _) fun _ => .pure _

/-! ## Runs -/

theorem tidy_boot : Tidy t boot :=
  .bind (.bind tidy_namei fun _ => tidy_modify _) fun _ => tidy_fsinit

theorem ReachIf.clean {img : ℕ → Block} (h : ReachIf (fun _ _ c => c.Whole) img s) : BufsClean s := by
  induction h with
  | boot h => exact tidy_boot.ok (fun _ => rfl) h
  | step _ _ hK hex ih => exact (tidy_call hK).ok ih hex

/-- User memory with one page, of bytes `x`. -/
def onePage (x : UInt8) : UserMem := fun n => if n = 0 then some (Bytes.ofFn _ fun _ => x) else none

end Fs

end Xv6
