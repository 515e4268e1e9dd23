import Xv6.Lib.Total
import Xv6.Fs.During

/-!
# What sleeps, and what renames a slot

Of the programs of the file system, only `ilock` sleeps: it waits for the lock of an inode. In a state
in the middle of a call it does not, unless the call has that lock itself. Only `iget` stores an inode
number into a slot of the inode table, and only into a slot that is not in use, and only `writei` stores
to a buffer without logging it. The other programs are `Plain`.
-/

namespace Xv6.Fs

open Conc Eff Vol

variable {α β : Type} {t : Tid} {s s' : FsSt} {ip dp : InodeId} {b dev inum : ℕ}

/-- A program never sleeps. -/
def Wakeful (t : Tid) (p : Fs α) : Prop := ∀ s, Awake (store t) p s

namespace Wakeful

variable {p q : Fs α}

theorem pure (a : α) : Wakeful t (Pure.pure a) := fun _ => .pure a

theorem bind {k : α → Fs β} (h : Wakeful t p) (hk : ∀ a, Wakeful t (k a)) : Wakeful t (p >>= k) :=
  fun s => .bind (h s) fun a s' _ => hk a s'

theorem ite {c : Prop} [Decidable c] (hp : Wakeful t p) (hq : Wakeful t q) :
    Wakeful t (if c then p else q) := fun s => .ite (hp s) (hq s)

end Wakeful

/-- Every slot of the inode table has the inode number it had. -/
def SameNums (m m' : Mem) : Prop := ∀ ip, (m'.itable ip).inum = (m.itable ip).inum

theorem SameNums.refl {m : Mem} : SameNums m m := fun _ => rfl

theorem SameNums.trans {m m' m'' : Mem} (h : SameNums m m') (h' : SameNums m' m'') : SameNums m m'' :=
  fun ip => (h' ip).trans (h ip)

theorem SameNums.setInode {m : Mem} {v : Inode} (h : v.inum = (m.itable ip).inum) :
    SameNums m (m.setInode ip v) := fun jp => by
  by_cases hj : jp = ip
  · rw [hj, Mem.setInode_itable_self, h]
  · rw [Mem.setInode_itable_of_ne hj]

/-- A section over the tables does not sleep, and leaves the numbers of the slots. -/
structure PlainSection (t : Tid) (f : Action Mem α) : Prop where
  wakes : ∀ m, f t m ≠ .block
  nums : ∀ m a m', f t m = .ok a m' → SameNums m m'

/-- A call of the block store that leaves no store unlogged, or a plain section over the tables. -/
def PlainOp (t : Tid) ⦃β : Type⦄ : Op β → Prop
  | .mem f => PlainSection t f
  | .scribble _ _ => False
  | _ => True

/-- A program neither sleeps nor renames a slot, and it logs what it stores. -/
def Plain (t : Tid) (p : Fs α) : Prop := p.Only (PlainOp t)

namespace Plain

variable {p : Fs α}

theorem wakeful (h : Plain t p) : Wakeful t p := by
  refine fun s => Free.Only.awake (fun β e s he ho => ?_) h
  cases e with
  | mem f =>
    have ho' : Outcome.block = liftMem s (f t s.mem) := ho
    have hwakes := PlainSection.wakes he s.mem
    cases hf : f t s.mem with
    | ok a m =>
      rw [hf] at ho'
      cases ho'
    | block => exact hwakes hf
    | panic msg =>
      rw [hf] at ho'
      cases ho'
  | bread b =>
    obtain ⟨x, -, ho⟩ := ho
    cases ho
  | logWrite b x =>
    have ho' : Outcome.block = s.logWrite b x := ho
    unfold FsSt.logWrite at ho'
    split at ho' <;> cases ho'
  | scribble | brelse | beginOp | endOp => cases ho

theorem nums (h : Plain t p) {m : Mem} : Eff.Stable (store t) (fun s => SameNums m s.mem) p := by
  refine Free.Only.stable (fun β e s b s' he hs ho => ?_) h
  cases e with
  | mem f =>
    have ho' : Outcome.ok b s' = liftMem s (f t s.mem) := ho
    cases hf : f t s.mem with
    | ok a m' =>
      rw [hf] at ho'
      obtain ⟨-, rfl⟩ := Outcome.ok.inj ho'
      exact hs.trans (PlainSection.nums he _ _ _ hf)
    | block =>
      rw [hf] at ho'
      cases ho'
    | panic msg =>
      rw [hf] at ho'
      cases ho'
  | bread b =>
    obtain ⟨x, -, ho⟩ := ho
    obtain ⟨-, rfl⟩ := Outcome.ok.inj ho
    exact hs
  | logWrite c x =>
    have ho' : Outcome.ok _ s' = s.logWrite c x := ho
    unfold FsSt.logWrite at ho'
    split at ho'
    · cases ho'
    · obtain ⟨-, rfl⟩ := Outcome.ok.inj ho'
      exact hs
  | scribble | brelse | beginOp | endOp =>
    obtain ⟨-, rfl⟩ := Outcome.ok.inj ho
    exact hs

/-- What holds after a program that is plain. -/
theorem total {err : String → Prop} {Q : α → FsSt → Prop} (h : Plain t p)
    (hwp : wp (store t) err p (fun a s' => SameNums s.mem s'.mem → Q a s') s) : twp (store t) err p Q s :=
  ⟨wp_of_exec (wp_mono hwp fun _ _ hQ hex => hQ (h.nums.ok .refl hex)), h.wakeful s⟩

end Plain

/-! ## Calls of the block store -/

theorem plain_mem {f : Action Mem α} (h : PlainSection t f) : Plain t (mem f) := Free.Only.call h

theorem plain_gets (f : Mem → α) : Plain t (gets f) := by
  refine plain_mem ⟨by rintro m ⟨⟩, fun m a m' he => ?_⟩
  obtain ⟨-, rfl⟩ := Outcome.ok.inj he
  exact .refl

theorem plain_modify {f : Mem → Mem} (h : ∀ m, SameNums m (f m)) : Plain t (modify f) := by
  refine plain_mem ⟨by rintro m ⟨⟩, fun m a m' he => ?_⟩
  obtain ⟨-, rfl⟩ := Outcome.ok.inj he
  exact h m

/-- A store to a slot that leaves its number. -/
theorem plain_setInode {g : Mem → Inode} (h : ∀ m, (g m).inum = (m.itable ip).inum) :
    Plain t (modify fun m => m.setInode ip (g m)) := plain_modify fun m => .setInode (h m)

theorem plain_setDinode {f : Dinode → Dinode} : Plain t (setDinode ip f) := plain_setInode fun _ => rfl

theorem plain_panic (msg : String) : Plain t (panic msg : Fs α) :=
  plain_mem ⟨by rintro m ⟨⟩, fun m a m' he => by cases he⟩

theorem plain_bread : Plain t (bread b) := Free.Only.call trivial

theorem plain_brelse : Plain t (brelse b) := Free.Only.call trivial

theorem plain_logWrite {x : Block} : Plain t (logWrite b x) := Free.Only.call trivial

theorem plain_bzero : Plain t (bzero b) :=
  .bind plain_bread fun _ => .bind plain_logWrite fun _ => plain_brelse

theorem plain_ballocLoop {sb : Superblock} {k b : ℕ} : Plain t (ballocLoop sb k b) := by
  induction k generalizing b with
  | zero => exact .pure 0
  | succ k ih =>
    refine .bind plain_bread fun x => ?_
    split
    · exact .bind plain_logWrite fun _ => .bind plain_brelse fun _ => .bind plain_bzero fun _ =>
        .pure _
    · exact .bind plain_brelse fun _ => ih

theorem plain_balloc : Plain t balloc := .bind (plain_gets _) fun _ => plain_ballocLoop

theorem plain_slotAddr {k : Fin 13} : Plain t (slotAddr ip k) :=
  .bind (plain_gets _) fun _ => .ite
    (.bind plain_balloc fun _ => .ite (.pure _) (.bind plain_setDinode fun _ => .pure _)) (.pure _)

theorem plain_bmap {bn : ℕ} : Plain t (bmap ip bn) := by
  unfold bmap
  split
  · exact plain_slotAddr
  · refine .ite (.bind plain_slotAddr fun _ => .ite (.pure _) (.bind plain_bread fun _ =>
      .ite ?_ (.bind plain_brelse fun _ => .pure _))) (plain_panic _)
    exact .bind plain_balloc fun _ => .ite
      (.bind plain_logWrite fun _ => .bind plain_brelse fun _ => .pure _)
      (.bind plain_brelse fun _ => .pure _)

/-- The lock of an inode is free unless the call has it. -/
theorem DuringIn.unlocked {P : Node → Prop} {sb : Superblock} {T : Tab} {V : Vol} {h : Hand}
    (hd : DuringIn P sb t s T V h) (hno : ¬ h.Locks ip) : (s.mem.itable ip).lock = none := by
  obtain ⟨m, hs, hc, -⟩ := hd
  rw [hs.mem, hc.slots.lock ip, if_neg hno]

theorem plain_iunlock : Plain t (iunlock ip) := by
  refine plain_mem ⟨fun m => ?_, fun m a m' he => ?_⟩
  · split <;> rintro ⟨⟩
  · split at he
    · cases he
    · obtain ⟨-, rfl⟩ := Outcome.ok.inj he
      exact .setInode rfl

theorem plain_iupdate : Plain t (iupdate ip) :=
  .bind (plain_gets _) fun _ => .bind (plain_gets _) fun _ => .bind plain_bread fun _ =>
    .bind plain_logWrite fun _ => plain_brelse

theorem plain_bfree : Plain t (bfree b) :=
  .bind (plain_gets _) fun _ => .bind plain_bread fun _ =>
    .ite (plain_panic _) (.bind plain_logWrite fun _ => plain_brelse)

theorem plain_itruncDirect {l : List (Fin 13)} : Plain t (itruncDirect ip l) := by
  induction l with
  | nil => exact .pure _
  | cons k l ih =>
    exact .bind (plain_gets _) fun _ =>
      .ite (.bind plain_bfree fun _ => .bind plain_setDinode fun _ => ih) ih

theorem plain_itruncIndirect {x : Block} {l : List ℕ} : Plain t (itruncIndirect x l) := by
  induction l with
  | nil => exact .pure _
  | cons j l ih =>
    unfold itruncIndirect
    exact .ite (.bind plain_bfree fun _ => ih) ih

theorem plain_itrunc : Plain t (itrunc ip) := by
  have hend : Plain t (do setDinode ip fun d => { d with size := 0 }; iupdate ip) :=
    .bind plain_setDinode fun _ => plain_iupdate
  refine .bind plain_itruncDirect fun _ => .bind (plain_gets _) fun _ => .ite ?_ hend
  exact .bind plain_bread fun _ => .bind plain_itruncIndirect fun _ => .bind plain_brelse fun _ =>
    .bind plain_bfree fun _ => .bind plain_setDinode fun _ => hend

theorem plain_iput : Plain t (iput ip) := by
  refine .bind (plain_mem ⟨fun m => ?_, fun m a m' he => ?_⟩) fun _ => .ite
    (.bind plain_itrunc fun _ => .bind plain_setDinode fun _ => .bind plain_iupdate fun _ =>
      .bind (plain_setInode fun _ => rfl) fun _ => .bind (plain_setInode fun _ => rfl) fun _ =>
      plain_setInode fun _ => rfl) (.pure _)
  · unfold iputSection
    simp only
    split
    · split <;> rintro ⟨⟩
    · rintro ⟨⟩
  · unfold iputSection at he
    simp only at he
    split at he
    · split at he
      · cases he
      · obtain ⟨-, rfl⟩ := Outcome.ok.inj he
        exact .setInode rfl
    · obtain ⟨-, rfl⟩ := Outcome.ok.inj he
      exact .setInode rfl

theorem plain_iunlockput : Plain t (iunlockput ip) := .bind plain_iunlock fun _ => plain_iput

/-! ## Reads and writes -/

theorem plain_readiLoop {dst : Dst} {n k tot off : ℕ} {acc : List UInt8} :
    Plain t (readiLoop ip dst n k tot off acc) := by
  induction k generalizing tot off acc with
  | zero => exact .pure _
  | succ k ih =>
    unfold readiLoop
    exact .ite (.bind plain_bmap fun _ => .ite (.pure _) (.bind plain_bread fun _ => .ite
      (.bind plain_brelse fun _ => ih) (.bind plain_brelse fun _ => .pure _))) (.pure _)

theorem plain_readi {dst : Dst} {off n : ℕ} : Plain t (readi ip dst off n) :=
  .bind (plain_gets _) fun _ => .ite (.pure _) plain_readiLoop

theorem plain_readDirent {off : ℕ} : Plain t (readDirent dp off) :=
  .bind plain_readi fun _ => .pure _

theorem plain_dirlinkLoop {last : ℕ} {l : List ℕ} : Plain t (dirlinkLoop dp last l) := by
  induction l with
  | nil => exact .pure _
  | cons off l ih =>
    refine .bind plain_readDirent fun de => ?_
    cases de with
    | none => exact plain_panic _
    | some de => exact .ite (.pure _) ih

end Xv6.Fs
