import Xv6.Lib.Count
import Xv6.Fs.ReadWrite

/-!
# References to inodes and files

A slot of the inode table counts the open files and current directories that point to it, and a
slot of the file table the descriptors. In the middle of a call there are also references in local
variables of the call, and pointers in the tables whose reference is already dropped or not yet
taken. `Hand` says which, so that the counts are exact at every point of a call (`Slots`, `Files`),
together with what the call has locked and what it will still have to free.

`Tab` are the tables without the inode table. The lemmas of this module say what each kind of step
does to the counts; no program is run here.
-/

namespace Xv6

open Count Own Vol Conc

/-! ## The tables -/

/-- The tables in memory, without the table of inodes. -/
structure Tab where
  ftable : FileId → File
  pipe : PipeId → Option PipeEnds
  proc : ProcId → ProcFiles
  aux : FsAux

/-- The tables without the table of inodes. -/
def Mem.tab (m : Mem) : Tab := ⟨m.ftable, m.pipe, m.proc, m.aux⟩

/-- A file refers to an inode. -/
def File.Refers (v : File) (i : InodeId) : Prop := (v.type = .inode ∨ v.type = .device) ∧ v.ip = i

instance (v : File) (i : InodeId) : Decidable (v.Refers i) := inferInstanceAs (Decidable (_ ∧ _))

namespace Tab

/-- The files and current directories that point to an inode. -/
def users (T : Tab) (i : InodeId) : ℕ :=
  num (fun f => (T.ftable f).Refers i) + num fun p => (T.proc p).cwd = some i

/-- The slots of the inode table that files and current directories point to. -/
def busy (T : Tab) : ℕ := num fun i => 0 < T.users i

/-- The descriptors that point to a file. -/
def fds (T : Tab) (f : FileId) : ℕ :=
  num fun x : ProcId × Fin nofile => (T.proc x.1).ofile x.2 = some f

/-- The end of a pipe that a file is. -/
def endOf (T : Tab) (f : FileId) : Option (PipeId × Bool) :=
  if (T.ftable f).type = .pipe then some ((T.ftable f).pipe, (T.ftable f).writable) else none

/-- The open ends of pipes. -/
def EndOpen (T : Tab) (x : PipeId × Bool) : Prop :=
  ∃ v, T.pipe x.1 = some v ∧ (if x.2 then v.writeopen else v.readopen) = true

/-- The tables with a file replaced. -/
def setFile (T : Tab) (f : FileId) (v : File) : Tab :=
  { T with ftable := fun g => if g = f then v else T.ftable g }

/-- The tables with the page of a pipe replaced. -/
def setPipe (T : Tab) (a : PipeId) (v : Option PipeEnds) : Tab :=
  { T with pipe := fun b => if b = a then v else T.pipe b }

/-- The tables with the files of a process replaced. -/
def setProc (T : Tab) (p : ProcId) (v : ProcFiles) : Tab :=
  { T with proc := fun q => if q = p then v else T.proc q }

/-- The tables with a descriptor replaced. -/
def setOfile (T : Tab) (p : ProcId) (fd : Fin nofile) (f : Option FileId) : Tab :=
  T.setProc p { T.proc p with ofile := fun i => if i = fd then f else (T.proc p).ofile i }

/-- The tables with a current directory replaced. -/
def setCwd (T : Tab) (p : ProcId) (i : Option InodeId) : Tab :=
  T.setProc p { T.proc p with cwd := i }

/-- The tables with other auxiliary variables. -/
def withAux (T : Tab) (a : FsAux) : Tab := { T with aux := a }

/-- Auxiliary: inode `i` is allocated. -/
def bear (T : Tab) (i : ℕ) : Tab :=
  T.withAux { T.aux with gen := fun j => if j = i then T.aux.gen j + 1 else T.aux.gen j }

/-- Auxiliary: entry `k` of directory `dir` is written and names `i`. -/
def stampEntry (T : Tab) (dir k i : ℕ) : Tab :=
  T.withAux { T.aux with
    stamp := fun d j => if d = dir ∧ j = k then T.aux.gen i else T.aux.stamp d j }

variable {T : Tab} {f g : FileId} {v : File} {p q : ProcId} {w : ProcFiles} {fd : Fin nofile}
  {o : Option FileId} {a : PipeId} {e : Option PipeEnds} {i j : InodeId} {c : Option InodeId}

@[simp] theorem setFile_ftable_self : (T.setFile f v).ftable f = v := if_pos rfl

theorem setFile_ftable_of_ne (h : g ≠ f) : (T.setFile f v).ftable g = T.ftable g := if_neg h

@[simp] theorem setFile_proc : (T.setFile f v).proc = T.proc := rfl

@[simp] theorem setProc_ftable : (T.setProc p w).ftable = T.ftable := rfl

@[simp] theorem setOfile_ftable : (T.setOfile p fd o).ftable = T.ftable := rfl

@[simp] theorem setCwd_ftable : (T.setCwd p c).ftable = T.ftable := rfl

@[simp] theorem setOfile_ofile_self : ((T.setOfile p fd o).proc p).ofile fd = o := by
  simp [setOfile, setProc]

theorem setOfile_ofile_of_ne {x : ProcId × Fin nofile} (h : x ≠ (p, fd)) :
    ((T.setOfile p fd o).proc x.1).ofile x.2 = (T.proc x.1).ofile x.2 := by
  by_cases hp : x.1 = p
  · have hfd : x.2 ≠ fd := fun e => h (Prod.ext hp e)
    simp [setOfile, setProc, hp, hfd]
  · simp [setOfile, setProc, hp]

@[simp] theorem setOfile_cwd : ((T.setOfile p fd o).proc q).cwd = (T.proc q).cwd := by
  by_cases hp : q = p <;> simp [setOfile, setProc, hp]

@[simp] theorem setCwd_ofile : ((T.setCwd p c).proc q).ofile = (T.proc q).ofile := by
  by_cases hp : q = p <;> simp [setCwd, setProc, hp]

@[simp] theorem setCwd_cwd_self : ((T.setCwd p c).proc p).cwd = c := by
  simp [setCwd, setProc]

theorem setCwd_cwd_of_ne (h : q ≠ p) : ((T.setCwd p c).proc q).cwd = (T.proc q).cwd := by
  simp [setCwd, setProc, h]

/-! ### Counts under updates -/

theorem users_pos_of_cwd (h : (T.proc p).cwd = some i) : 0 < T.users i :=
  Nat.add_pos_right _ (num_pos h)

theorem users_pos_of_file (h : (T.ftable f).Refers i) : 0 < T.users i :=
  Nat.add_pos_left (num_pos (P := fun g => (T.ftable g).Refers i) h) _

theorem fds_pos (h : (T.proc p).ofile fd = some f) : 0 < T.fds f :=
  num_pos (P := fun x : ProcId × Fin nofile => (T.proc x.1).ofile x.2 = some f) (x := (p, fd)) h

theorem users_setFile : (T.setFile f v).users i + (if (T.ftable f).Refers i then 1 else 0) =
    T.users i + if v.Refers i then 1 else 0 := by
  have h := num_change (P := fun g => ((T.setFile f v).ftable g).Refers i)
    (Q := fun g => (T.ftable g).Refers i) f fun g hg => by rw [setFile_ftable_of_ne hg]
  have hc : num (fun q => ((T.setFile f v).proc q).cwd = some i) =
      num fun q => (T.proc q).cwd = some i := num_congr fun _ => Iff.rfl
  simp only [setFile_ftable_self] at h
  unfold users
  omega

theorem users_setOfile : (T.setOfile p fd o).users i = T.users i := by
  refine congrArg₂ (· + ·) (num_congr fun _ => Iff.rfl) (num_congr fun q => ?_)
  rw [setOfile_cwd]

theorem users_setCwd : (T.setCwd p c).users i + (if (T.proc p).cwd = some i then 1 else 0) =
    T.users i + if c = some i then 1 else 0 := by
  have h := num_change (P := fun q => ((T.setCwd p c).proc q).cwd = some i)
    (Q := fun q => (T.proc q).cwd = some i) p fun q hq => by rw [setCwd_cwd_of_ne hq]
  have hf : num (fun g => ((T.setCwd p c).ftable g).Refers i) =
      num fun g => (T.ftable g).Refers i := num_congr fun _ => Iff.rfl
  simp only [setCwd_cwd_self] at h
  unfold users
  omega

theorem fds_setOfile : (T.setOfile p fd o).fds f + (if (T.proc p).ofile fd = some f then 1 else 0) =
    T.fds f + if o = some f then 1 else 0 := by
  have h := num_change
    (P := fun x : ProcId × Fin nofile => ((T.setOfile p fd o).proc x.1).ofile x.2 = some f)
    (Q := fun x : ProcId × Fin nofile => (T.proc x.1).ofile x.2 = some f) (p, fd)
    fun x hx => by rw [setOfile_ofile_of_ne hx]
  simp only [setOfile_ofile_self] at h
  exact h

theorem fds_setFile : (T.setFile f v).fds g = T.fds g := rfl

theorem fds_setCwd : (T.setCwd p c).fds f = T.fds f :=
  num_congr fun x => by rw [setCwd_ofile]

end Tab

/-! ## What a call holds -/

/-- A bound for the number of blocks that an operation logs, and when it is meant to hold. -/
structure Bound where
  when : Prop
  peak : ℕ

/-- What a call in progress holds. References and locks of inodes come with the number of the
inode. -/
structure Hand where
  /-- The references in local variables. -/
  refs : List (InodeId × ℕ)
  /-- The inodes locked. -/
  locks : List (InodeId × ℕ)
  /-- The inodes that the call may have left without links, and will drop. -/
  pins : List InodeId
  /-- The inodes that are allocated, and may have neither a link nor a reference. -/
  fresh : Finset ℕ
  /-- The current directories whose reference is dropped. -/
  owed : List InodeId
  /-- The references to files in local variables. -/
  files : List FileId
  /-- The descriptors whose reference is dropped, or not yet taken. -/
  fowed : List FileId
  /-- How many data blocks the operation may have logged. -/
  data : ℕ
  /-- The inodes whose blocks the operation may have logged. -/
  inos : Finset ℕ
  /-- The call is between `begin_op` and `end_op`. -/
  op : Bool
  /-- What the operations before kept to. -/
  bound : Bound

namespace Hand

/-- Nothing. -/
def idle (b : Bound) : Hand := ⟨[], [], [], ∅, [], [], [], 0, ∅, false, b⟩

/-- How many references to a slot. -/
def count (h : Hand) (i : InodeId) : ℕ := (h.refs.map Prod.fst).count i

/-- With a further reference. -/
def take (h : Hand) (ip : InodeId) (i : ℕ) : Hand := { h with refs := (ip, i) :: h.refs }

/-- With a further lock. -/
def lock (h : Hand) (ip : InodeId) (i : ℕ) : Hand := { h with locks := (ip, i) :: h.locks }

/-- A slot is locked. -/
def Locks (h : Hand) (i : InodeId) : Prop := ∃ x ∈ h.locks, x.1 = i

/-- With an inode to drop. -/
def pin (h : Hand) (ip : InodeId) : Hand := { h with pins := ip :: h.pins }

/-- After an inode block has been logged. -/
def log (h : Hand) (i : ℕ) : Hand := { h with inos := insert i h.inos }

/-- After a directory entry has been written. -/
def entry (h : Hand) (d : ℕ) : Hand := { h with data := h.data + 2, inos := insert d h.inos }

/-- A slot has a reference that will be there after the call, or that the call holds. -/
def Used (h : Hand) (T : Tab) (i : InodeId) : Prop := h.owed.count i < T.users i + h.count i

/-- Two hands with the same account of what is logged. -/
structure LogEq (h h' : Hand) : Prop where
  data : h'.data = h.data
  inos : h'.inos = h.inos
  bound : h'.bound = h.bound
  op : h'.op = h.op

instance (h : Hand) (i : InodeId) : Decidable (h.Locks i) := inferInstanceAs (Decidable (∃ x ∈ _, _))

variable {h : Hand} {ip jp : InodeId} {i : ℕ}

@[simp] theorem count_take_self : (h.take ip i).count ip = h.count ip + 1 := by
  simp [take, count]

theorem count_take_of_ne (hne : jp ≠ ip) : (h.take ip i).count jp = h.count jp := by
  simp [take, count, List.count_cons_of_ne hne.symm]

theorem count_le_take : h.count jp ≤ (h.take ip i).count jp := List.count_le_count_cons

theorem locks_lock : (h.lock ip i).Locks jp ↔ jp = ip ∨ h.Locks jp := by
  simp only [Locks, lock, List.mem_cons, exists_eq_or_imp, eq_comm]

theorem locks_congr {h' : Hand} (he : h'.locks = h.locks) : h'.Locks jp ↔ h.Locks jp := by
  unfold Locks
  rw [he]

theorem count_pos {x : InodeId × ℕ} (hx : x ∈ h.refs) : 0 < h.count x.1 :=
  List.count_pos_iff.2 (List.mem_map_of_mem hx)

end Hand

/-- What the counts of references say about the slots of the inode table. -/
structure Slots (sb : Superblock) (t : Tid) (T : Tab) (I : InodeId → Inode) (V : Vol) (h : Hand) :
    Prop where
  ref : ∀ i, (I i).ref + h.owed.count i = T.users i + h.count i
  owed : ∀ i, h.owed.count i ≤ T.users i
  lock : ∀ i, (I i).lock = if h.Locks i then some t else none
  nodup : (h.locks.map Prod.fst).Nodup
  held : ∀ x ∈ h.locks, h.Used T x.1 ∧ (I x.1).valid = true
  name : ∀ x, x ∈ h.refs ∨ x ∈ h.locks → (I x.1).inum = x.2
  named : ∀ i, 0 < (I i).ref → (I i).dev = rootdev ∧ 0 < (I i).inum ∧ (I i).inum < sb.ninodes
  uniq : ∀ i j, 0 < (I i).ref → 0 < (I j).ref → (I i).inum = (I j).inum → i = j
  /-- The copy of an inode is the inode on the disk. -/
  copy : ∀ i, 0 < (I i).ref → (I i).valid = true →
    (I i).d = V.ino (I i).inum ∧ (V.ino (I i).inum).type ≠ 0
  /-- The inodes of open files and current directories are allocated. -/
  live : ∀ i, h.owed.count i < T.users i → (V.ino (I i).inum).type ≠ 0
  writable : ∀ f i, (T.ftable f).Refers i → (T.ftable f).writable = true →
    h.owed.count i < T.users i → (V.ino (I i).inum).type ≠ tDir
  /-- An inode without links is in use, and will be freed when it is dropped. -/
  orphan : ∀ j, 0 < j → (V.ino j).type ≠ 0 → (V.ino j).nlink = 0 → j ∈ h.fresh ∨
    ∃ i, (I i).inum = j ∧ (I i).valid = true ∧
      (h.owed.count i < T.users i ∨ i ∈ h.pins ∧ 0 < h.count i)

namespace Slots

variable {sb : Superblock} {t : Tid} {T T' : Tab} {I I' : InodeId → Inode} {V W : Vol} {h h' : Hand}
  {ip jp : InodeId} {i : ℕ} {v : Inode}

theorem used_iff (hs : Slots sb t T I V h) (j : InodeId) : h.Used T j ↔ 0 < (I j).ref := by
  have := hs.ref j
  unfold Hand.Used
  omega

theorem used_of_mem (hs : Slots sb t T I V h) {x : InodeId × ℕ} (hx : x ∈ h.refs) :
    h.Used T x.1 := by
  have h₁ := hs.owed x.1
  have h₂ := Hand.count_pos hx
  unfold Hand.Used
  omega

/-- A table without a free slot is full of slots in use. -/
theorem ninode_le (hs : Slots sb t T I V h) (hfull : ∀ j, 0 < (I j).ref) :
    ninode ≤ T.busy + h.refs.length := by
  have hcover : (Finset.univ : Finset InodeId) ⊆
      (Finset.univ.filter fun j => 0 < T.users j) ∪ (h.refs.map Prod.fst).toFinset := by
    intro j _
    have hr := hs.ref j
    have hj := hfull j
    by_cases hu : 0 < T.users j
    · exact Finset.mem_union_left _ (Finset.mem_filter.2 ⟨Finset.mem_univ j, hu⟩)
    · refine Finset.mem_union_right _ (List.mem_toFinset.2 (List.count_pos_iff.1 ?_))
      unfold Hand.count at hr
      omega
  have hcard := (Finset.card_le_card hcover).trans (Finset.card_union_le _ _)
  have hlen := (h.refs.map Prod.fst).toFinset_card_le
  rw [Finset.card_univ, Fintype.card_fin] at hcard
  rw [List.length_map] at hlen
  unfold Tab.busy num
  omega

theorem withAux (hs : Slots sb t T I V h) (a : FsAux) : Slots sb t (T.withAux a) I V h :=
  ⟨hs.ref, hs.owed, hs.lock, hs.nodup, hs.held, hs.name, hs.named, hs.uniq, hs.copy, hs.live,
    hs.writable, hs.orphan⟩

/-- The order in which a call took its references does not matter, nor what it has pinned and
dropped. -/
theorem reorder (hs : Slots sb t T I V h) (hr : h.refs.Perm h'.refs) (hl : h.locks.Perm h'.locks)
    (hp : ∀ j ∈ h.pins, 0 < h.count j → j ∈ h'.pins) (ho : h'.owed = h.owed)
    (hf : h'.fresh = h.fresh) : Slots sb t T I V h' := by
  have hcount : ∀ j, h'.count j = h.count j := fun j => ((hr.map Prod.fst).count_eq j).symm
  have hUsed : ∀ j, h'.Used T j ↔ h.Used T j := fun j => by
    unfold Hand.Used
    rw [hcount, ho]
  have hLocks : ∀ j, h'.Locks j ↔ h.Locks j := fun j => by
    simp only [Hand.Locks, hl.mem_iff]
  refine ⟨fun j => ?_, fun j => by rw [ho]; exact hs.owed j, fun j => ?_,
    (hl.map Prod.fst).nodup_iff.1 hs.nodup, fun x hx => ?_, fun x hx => ?_, hs.named, hs.uniq,
    hs.copy, by rw [ho]; exact hs.live, by rw [ho]; exact hs.writable, fun j hj ht hn => ?_⟩
  · rw [hcount, ho]
    exact hs.ref j
  · rw [if_congr (hLocks j) rfl rfl]
    exact hs.lock j
  · rw [hUsed]
    exact hs.held x (hl.mem_iff.2 hx)
  · exact hs.name x (hx.imp hr.mem_iff.2 hl.mem_iff.2)
  · rw [hf, ho]
    refine (hs.orphan j hj ht hn).imp_right ?_
    rintro ⟨k, hk, hv, hd⟩
    refine ⟨k, hk, hv, hd.imp_right fun h => ?_⟩
    rw [hcount]
    exact ⟨hp k h.1 h.2, h.2⟩

/-- Only counts change, and who holds a reference. -/
theorem recount (hs : Slots sb t T I V h) (hI : ∀ j, I' j = { I j with ref := (I' j).ref })
    (href : ∀ j, (I' j).ref + h'.owed.count j = T'.users j + h'.count j)
    (howed : ∀ j, h'.owed.count j ≤ T'.users j) (hlocks : h'.locks = h.locks)
    (hfresh : h'.fresh = h.fresh) (hheld : ∀ x ∈ h.locks, h'.Used T' x.1)
    (hname : ∀ x ∈ h'.refs, (I x.1).inum = x.2) (hused : ∀ j, h'.Used T' j → h.Used T j)
    (hlive : ∀ j, h'.owed.count j < T'.users j →
      h.owed.count j < T.users j ∨ (V.ino (I j).inum).type ≠ 0)
    (hwr : ∀ f j, (T'.ftable f).Refers j → (T'.ftable f).writable = true →
      h'.owed.count j < T'.users j → (V.ino (I j).inum).type ≠ tDir)
    (horph : ∀ j, (I j).valid = true → (V.ino (I j).inum).nlink = 0 →
      h.owed.count j < T.users j ∨ j ∈ h.pins ∧ 0 < h.count j →
      h'.owed.count j < T'.users j ∨ j ∈ h'.pins ∧ 0 < h'.count j) :
    Slots sb t T' I' V h' := by
  have hinum : ∀ j, (I' j).inum = (I j).inum := fun j => by rw [hI j]
  have hvalid : ∀ j, (I' j).valid = (I j).valid := fun j => by rw [hI j]
  have hu : ∀ j, 0 < (I' j).ref → 0 < (I j).ref := fun j hj =>
    (hs.used_iff j).1 (hused j (by have := href j; unfold Hand.Used; omega))
  refine ⟨href, howed, fun j => ?_, by rw [hlocks]; exact hs.nodup, fun x hx => ?_, fun x hx => ?_,
    fun j hj => ?_, fun j k hj hk => ?_, fun j hj hv => ?_, fun j hj => ?_, fun f j hf hw hj => ?_,
    fun j hj ht hn => ?_⟩
  · rw [hI j, if_congr (Hand.locks_congr hlocks) rfl rfl]
    exact hs.lock j
  · rw [hlocks] at hx
    rw [hvalid]
    exact ⟨hheld x hx, (hs.held x hx).2⟩
  · rw [hinum]
    rcases hx with hx | hx
    · exact hname x hx
    · rw [hlocks] at hx
      exact hs.name x (.inr hx)
  · rw [hI j]
    exact hs.named j (hu j hj)
  · rw [hinum, hinum]
    exact hs.uniq j k (hu j hj) (hu k hk)
  · rw [hI j] at hv ⊢
    exact hs.copy j (hu j hj) hv
  · rw [hinum]
    exact (hlive j hj).elim (hs.live j) id
  · rw [hinum]
    exact hwr f j hf hw hj
  · rw [hfresh]
    refine (hs.orphan j hj ht hn).imp_right ?_
    rintro ⟨k, rfl, hv, hd⟩
    exact ⟨k, hinum k, (hvalid k).trans hv, horph k hv hn hd⟩

/-- A further reference to a slot in use. -/
theorem hold (hs : Slots sb t T I V h) (hu : h.Used T ip)
    (hself : I' ip = { I ip with ref := (I ip).ref + 1 }) (hne : ∀ j, j ≠ ip → I' j = I j) :
    Slots sb t T I' V (h.take ip (I ip).inum) := by
  have hused : ∀ j, (h.take ip (I ip).inum).Used T j ↔ h.Used T j := fun j => by
    by_cases hj : j = ip
    · subst hj
      refine iff_of_true ?_ hu
      have hle : h.count j ≤ (h.take j (I j).inum).count j := Hand.count_le_take
      unfold Hand.Used at hu ⊢
      simp only [Hand.take] at hle ⊢
      omega
    · unfold Hand.Used
      rw [Hand.count_take_of_ne hj]
      rfl
  refine hs.recount (fun j => ?_) (fun j => ?_) hs.owed rfl rfl
    (fun x hx => (hused x.1).2 (hs.held x hx).1) (fun x hx => ?_) (fun j => (hused j).1)
    (fun j => .inl) hs.writable fun j _ _ hd => hd.imp_right fun hp => ⟨hp.1, hp.2.trans_le Hand.count_le_take⟩
  · by_cases hj : j = ip
    · rw [hj, hself]
    · rw [hne j hj]
  · by_cases hj : j = ip
    · have := hs.ref ip
      rw [hj, hself, Hand.count_take_self]
      simp only [Hand.take] at *
      omega
    · rw [hne j hj, Hand.count_take_of_ne hj]
      exact hs.ref j
  · rcases List.mem_cons.1 hx with rfl | hx
    · rfl
    · exact hs.name x (.inl hx)

/-- A reference is dropped, and the inode not freed. -/
theorem drop (hs : Slots sb t T I V (h.take ip i)) (hlock : h.Locks ip → h.Used T ip)
    (hkeep : ip ∉ h.pins ∨ 0 < h.count ip ∨ (I ip).valid = false ∨ (V.ino i).nlink ≠ 0 ∨
      1 < (I ip).ref)
    (hself : I' ip = { I ip with ref := (I ip).ref - 1 }) (hne : ∀ j, j ≠ ip → I' j = I j) :
    Slots sb t T I' V h := by
  have hi : (I ip).inum = i := hs.name (ip, i) (.inl List.mem_cons_self)
  have href := hs.ref ip
  have howed := hs.owed ip
  rw [Hand.count_take_self] at href
  refine hs.recount (fun j => ?_) (fun j => ?_) hs.owed rfl rfl (fun x hx => ?_)
    (fun x hx => hs.name x (.inl (List.mem_cons_of_mem _ hx))) (fun j hj => ?_) (fun j => .inl)
    hs.writable fun j hv hn hd => ?_
  · by_cases hj : j = ip
    · rw [hj, hself]
    · rw [hne j hj]
  · by_cases hj : j = ip
    · rw [hj, hself]
      simp only [Hand.take, Hand.count] at *
      omega
    · have := hs.ref j
      rw [Hand.count_take_of_ne hj] at this
      rw [hne j hj]
      exact this
  · by_cases hxip : x.1 = ip
    · rw [hxip]
      exact hlock ⟨x, hx, hxip⟩
    · have hx' := (hs.held x hx).1
      unfold Hand.Used at hx' ⊢
      rw [Hand.count_take_of_ne hxip] at hx'
      exact hx'
  · by_cases hjp : j = ip
    · subst hjp
      exact hs.used_of_mem (x := (j, i)) List.mem_cons_self
    · unfold Hand.Used at hj ⊢
      rw [Hand.count_take_of_ne hjp]
      exact hj
  · rcases hd with hd | ⟨hp, hc⟩
    · exact .inl hd
    · by_cases hjp : j = ip
      · subst hjp
        by_cases hc0 : h.count j = 0
        · left
          rw [hi] at hn
          have hp' : j ∈ h.pins := hp
          have hc' : ¬ 0 < h.count j := by omega
          have hlt : 1 < (I j).ref := by
            rcases hkeep with hk | hk | hk | hk | hk
            · exact absurd hp' hk
            · exact absurd hk hc'
            · rw [hv] at hk
              cases hk
            · exact absurd hn hk
            · exact hk
          simp only [Hand.take] at *
          omega
        · exact .inr ⟨hp, Nat.pos_of_ne_zero hc0⟩
      · rw [Hand.count_take_of_ne hjp] at hc
        exact .inr ⟨hp, hc⟩

/-- A slot is given to an inode that has none. -/
theorem enter (hs : Slots sb t T I V h) (hfree : (I ip).ref = 0) (hi : 0 < i) (hlt : i < sb.ninodes)
    (hnone : ∀ j, 0 < (I j).ref → (I j).inum ≠ i)
    (hself : I' ip = { I ip with dev := rootdev, inum := i, ref := 1, valid := false })
    (hne : ∀ j, j ≠ ip → I' j = I j) : Slots sb t T I' V (h.take ip i) := by
  have href := hs.ref ip
  have howed := hs.owed ip
  have hcount : h.count ip = 0 := by omega
  have hnot : ¬ h.Used T ip := fun hu => by
    have := (hs.used_iff ip).1 hu
    omega
  have hx : ∀ x ∈ h.refs, x.1 ≠ ip := fun x hx e => by
    have := Hand.count_pos hx
    rw [e] at this
    omega
  have hl : ∀ x ∈ h.locks, x.1 ≠ ip := fun x hx e => hnot (e ▸ (hs.held x hx).1)
  have hself' : (I' ip).ref = 1 ∧ (I' ip).inum = i ∧ (I' ip).dev = rootdev ∧
      (I' ip).valid = false ∧ (I' ip).lock = (I ip).lock := by
    rw [hself]
    exact ⟨rfl, rfl, rfl, rfl, rfl⟩
  obtain ⟨hr, hn, hd, hv, hk⟩ := hself'
  refine ⟨fun j => ?_, hs.owed, fun j => ?_, hs.nodup, fun x hx => ?_, fun x hx' => ?_,
    fun j hj => ?_, fun j k hj hk => ?_, fun j hj hvj => ?_, fun j hj => ?_, fun f j hf hw hj => ?_,
    fun j hj ht hl => ?_⟩
  · by_cases hj : j = ip
    · rw [hj, hr, Hand.count_take_self]
      simp only [Hand.take] at *
      omega
    · rw [hne j hj, Hand.count_take_of_ne hj]
      exact hs.ref j
  · have hlock := hs.lock j
    by_cases hj : j = ip
    · rw [hj] at hlock ⊢
      rw [hk]
      exact hlock
    · rw [hne j hj]
      exact hlock
  · have hxip := hl x hx
    rw [hne x.1 hxip]
    unfold Hand.Used
    rw [Hand.count_take_of_ne hxip]
    exact hs.held x hx
  · rcases hx' with hx' | hx'
    · rcases List.mem_cons.1 hx' with rfl | hx'
      · exact hn
      · rw [hne x.1 (hx x hx')]
        exact hs.name x (.inl hx')
    · rw [hne x.1 (hl x hx')]
      exact hs.name x (.inr hx')
  · by_cases hjp : j = ip
    · rw [hjp, hd, hn]
      exact ⟨rfl, hi, hlt⟩
    · rw [hne j hjp] at hj ⊢
      exact hs.named j hj
  · by_cases hjp : j = ip <;> by_cases hkp : k = ip
    · exact fun _ => hjp.trans hkp.symm
    · rw [hne k hkp] at hk ⊢
      rw [hjp, hn]
      exact fun e => absurd e.symm (hnone k hk)
    · rw [hne j hjp] at hj ⊢
      rw [hkp, hn]
      exact fun e => absurd e (hnone j hj)
    · rw [hne j hjp] at hj ⊢
      rw [hne k hkp] at hk ⊢
      exact hs.uniq j k hj hk
  · by_cases hjp : j = ip
    · rw [hjp, hv] at hvj
      cases hvj
    · rw [hne j hjp] at hj hvj ⊢
      exact hs.copy j hj hvj
  · have hjp : j ≠ ip := by
      rintro rfl
      simp only [Hand.take] at hj
      omega
    rw [hne j hjp]
    exact hs.live j hj
  · have hjp : j ≠ ip := by
      rintro rfl
      simp only [Hand.take] at hj
      omega
    rw [hne j hjp]
    exact hs.writable f j hf hw hj
  · refine (hs.orphan j hj ht hl).imp_right ?_
    rintro ⟨k, rfl, hvk, hdk⟩
    have hkp : k ≠ ip := by
      rintro rfl
      omega
    refine ⟨k, by rw [hne k hkp], by rw [hne k hkp]; exact hvk, ?_⟩
    rw [Hand.count_take_of_ne hkp]
    exact hdk

/-- A slot is locked and its copy of the inode is there. -/
theorem acquire (hs : Slots sb t T I V h) (hu : h.Used T ip) (hlock : (I ip).lock = none)
    (hself : I' ip = { I ip with lock := some t, valid := true, d := V.ino (I ip).inum })
    (ht : (V.ino (I ip).inum).type ≠ 0) (hne : ∀ j, j ≠ ip → I' j = I j) :
    Slots sb t T I' V (h.lock ip (I ip).inum) := by
  have hinum : ∀ j, (I' j).inum = (I j).inum := fun j => by
    by_cases hj : j = ip
    · rw [hj, hself]
    · rw [hne j hj]
  have href : ∀ j, (I' j).ref = (I j).ref := fun j => by
    by_cases hj : j = ip
    · rw [hj, hself]
    · rw [hne j hj]
  have hvalid : ∀ j, (I j).valid = true → (I' j).valid = true := fun j hv => by
    by_cases hj : j = ip
    · rw [hj, hself]
    · rwa [hne j hj]
  have hnot : ¬ h.Locks ip := fun hl => by
    rw [hs.lock ip, if_pos hl] at hlock
    cases hlock
  refine ⟨fun j => by rw [href]; exact hs.ref j, hs.owed, fun j => ?_, ?_, fun x hx => ?_,
    fun x hx => ?_, fun j hj => ?_, fun j k => ?_, fun j hj hv => ?_, fun j hj => ?_,
    fun f j hf hw hj => ?_, fun j hj htj hn => ?_⟩
  · by_cases hj : j = ip
    · have hl : (h.lock ip (I ip).inum).Locks ip := ⟨_, List.mem_cons_self, rfl⟩
      rw [hj, hself, if_pos hl]
    · have hiff : (h.lock ip (I ip).inum).Locks j ↔ h.Locks j :=
        Hand.locks_lock.trans (or_iff_right hj)
      rw [hne j hj, if_congr hiff rfl rfl]
      exact hs.lock j
  · refine List.nodup_cons.2 ⟨fun hm => hnot ?_, hs.nodup⟩
    obtain ⟨x, hx, he⟩ := List.mem_map.1 hm
    exact ⟨x, hx, he⟩
  · rcases List.mem_cons.1 hx with rfl | hx
    · exact ⟨hu, by rw [hself]⟩
    · exact ⟨(hs.held x hx).1, hvalid _ (hs.held x hx).2⟩
  · rw [hinum]
    rcases hx with hx | hx
    · exact hs.name x (.inl hx)
    · rcases List.mem_cons.1 hx with rfl | hx
      · rfl
      · exact hs.name x (.inr hx)
  · rw [href] at hj
    by_cases hjp : j = ip
    · subst hjp
      rw [hself]
      exact hs.named j hj
    · rw [hne j hjp]
      exact hs.named j hj
  · rw [href, href, hinum, hinum]
    exact hs.uniq j k
  · rw [href] at hj
    by_cases hjp : j = ip
    · rw [hjp, hself]
      exact ⟨rfl, ht⟩
    · rw [hne j hjp] at hv ⊢
      exact hs.copy j hj hv
  · rw [hinum]
    exact hs.live j hj
  · rw [hinum]
    exact hs.writable f j hf hw hj
  · refine (hs.orphan j hj htj hn).imp_right ?_
    rintro ⟨k, rfl, hv, hd⟩
    exact ⟨k, hinum k, hvalid k hv, hd⟩

/-- A lock is released. -/
theorem release (hs : Slots sb t T I V (h.lock ip i)) (hself : I' ip = { I ip with lock := none })
    (hne : ∀ j, j ≠ ip → I' j = I j) : Slots sb t T I' V h := by
  have hI : ∀ j, I' j = { I j with lock := (I' j).lock } := fun j => by
    by_cases hj : j = ip
    · rw [hj, hself]
    · rw [hne j hj]
  have hinum : ∀ j, (I' j).inum = (I j).inum := fun j => by rw [hI j]
  have href : ∀ j, (I' j).ref = (I j).ref := fun j => by rw [hI j]
  have hvalid : ∀ j, (I' j).valid = (I j).valid := fun j => by rw [hI j]
  obtain ⟨hnot, hnodup⟩ := List.nodup_cons.1 hs.nodup
  refine ⟨fun j => by rw [href]; exact hs.ref j, hs.owed, fun j => ?_, hnodup, fun x hx => ?_,
    fun x hx => ?_, fun j hj => ?_, fun j k => ?_, fun j hj hv => ?_, fun j hj => ?_,
    fun f j hf hw hj => ?_, fun j hj htj hn => ?_⟩
  · by_cases hj : j = ip
    · have hl : ¬ h.Locks ip := by
        rintro ⟨x, hx, he⟩
        exact hnot (List.mem_map.2 ⟨x, hx, he⟩)
      rw [hj, hself, if_neg hl]
    · have hiff : h.Locks j ↔ (h.lock ip i).Locks j :=
        (Hand.locks_lock.trans (or_iff_right hj)).symm
      rw [hne j hj, if_congr hiff rfl rfl]
      exact hs.lock j
  · rw [hvalid]
    exact hs.held x (List.mem_cons_of_mem _ hx)
  · rw [hinum]
    exact hs.name x (hx.imp_right fun hx => List.mem_cons_of_mem _ hx)
  · rw [href] at hj
    rw [hI j]
    exact hs.named j hj
  · rw [href, href, hinum, hinum]
    exact hs.uniq j k
  · rw [href] at hj
    rw [hI j] at hv ⊢
    exact hs.copy j hj hv
  · rw [hinum]
    exact hs.live j hj
  · rw [hinum]
    exact hs.writable f j hf hw hj
  · refine (hs.orphan j hj htj hn).imp_right ?_
    rintro ⟨k, rfl, hv, hd⟩
    exact ⟨k, hinum k, (hvalid k).trans hv, hd⟩

/-- A slot whose number is known. -/
theorem eq_of_inum (hs : Slots sb t T I V h) (hu : h.Used T ip) (hv : h.Used T jp)
    (he : (I jp).inum = (I ip).inum) : jp = ip :=
  hs.uniq jp ip ((hs.used_iff jp).1 hv) ((hs.used_iff ip).1 hu) he

/-- The slot of an inode without links is in use. -/
theorem used_of_orphan (hs : Slots sb t T I V h)
    (hd : h.owed.count jp < T.users jp ∨ jp ∈ h.pins ∧ 0 < h.count jp) : h.Used T jp := by
  have := hs.owed jp
  unfold Hand.Used
  omega

/-- The fields of an inode change, on the disk and in its locked slot. -/
theorem change (hs : Slots sb t T I V h) (hx : (ip, i) ∈ h.locks)
    (hother : ∀ j, j ≠ i → W.ino j = V.ino j) (htype : (W.ino i).type = (V.ino i).type)
    (hlink : (W.ino i).nlink = 0 → (V.ino i).nlink = 0 ∧ h'.fresh = h.fresh ∨
      ip ∈ h'.pins ∧ 0 < h.count ip)
    (hh : h' = { h with pins := h'.pins, fresh := h'.fresh, data := h'.data, inos := h'.inos })
    (hpins : ∀ j ∈ h.pins, j ∈ h'.pins) (hfresh : ∀ j ∈ h.fresh, j ≠ i → j ∈ h'.fresh)
    (hself : I' ip = { I ip with d := W.ino i }) (hne : ∀ j, j ≠ ip → I' j = I j) :
    Slots sb t T I' W h' := by
  have hi : (I ip).inum = i := hs.name (ip, i) (.inr hx)
  obtain ⟨hu, hval⟩ := hs.held _ hx
  have hI : ∀ j, I' j = { I j with d := (I' j).d } := fun j => by
    by_cases hj : j = ip
    · rw [hj, hself]
    · rw [hne j hj]
  have hinum : ∀ j, (I' j).inum = (I j).inum := fun j => by rw [hI j]
  have href : ∀ j, (I' j).ref = (I j).ref := fun j => by rw [hI j]
  have hvalid : ∀ j, (I' j).valid = (I j).valid := fun j => by rw [hI j]
  have hty : ∀ j, (W.ino j).type = (V.ino j).type := fun j => by
    by_cases hj : j = i
    · rw [hj, htype]
    · rw [hother j hj]
  have hcount : ∀ j, h'.count j = h.count j := fun j => by rw [hh]; rfl
  have howed : h'.owed = h.owed := by rw [hh]
  have hlocks : h'.locks = h.locks := by rw [hh]
  have hrefs : h'.refs = h.refs := by rw [hh]
  have hUsed : ∀ j, h'.Used T j ↔ h.Used T j := fun j => by
    unfold Hand.Used
    rw [hcount, howed]
  refine ⟨fun j => ?_, fun j => by rw [howed]; exact hs.owed j, fun j => ?_,
    by rw [hlocks]; exact hs.nodup, fun x hx => ?_, fun x hx => ?_, fun j hj => ?_, fun j k => ?_,
    fun j hj hv => ?_, fun j hj => ?_, fun f j hf hw hj => ?_, fun j hj htj hn => ?_⟩
  · rw [href, howed, hcount]
    exact hs.ref j
  · rw [hI j, if_congr (Hand.locks_congr hlocks) rfl rfl]
    exact hs.lock j
  · rw [hlocks] at hx
    rw [hUsed, hvalid]
    exact hs.held x hx
  · rw [hrefs, hlocks] at hx
    rw [hinum]
    exact hs.name x hx
  · rw [href] at hj
    rw [hI j]
    exact hs.named j hj
  · rw [href, href, hinum, hinum]
    exact hs.uniq j k
  · rw [href] at hj
    rw [hvalid] at hv
    rw [hinum, hty]
    refine ⟨?_, (hs.copy j hj hv).2⟩
    by_cases hjp : j = ip
    · rw [hjp, hself, hi]
    · have hji : (I j).inum ≠ i := fun e =>
        hjp (hs.eq_of_inum hu ((hs.used_iff j).2 hj) (e.trans hi.symm))
      rw [hne j hjp, hother _ hji]
      exact (hs.copy j hj hv).1
  · rw [howed] at hj
    rw [hinum, hty]
    exact hs.live j hj
  · rw [howed] at hj
    rw [hinum, hty]
    exact hs.writable f j hf hw hj
  · rw [hty] at htj
    have hold : (V.ino j).nlink = 0 → (j ∈ h.fresh → j ∈ h'.fresh) →
        j ∈ h'.fresh ∨ ∃ k, (I' k).inum = j ∧ (I' k).valid = true ∧
          (h'.owed.count k < T.users k ∨ k ∈ h'.pins ∧ 0 < h'.count k) := fun hn hf => by
      refine (hs.orphan j hj htj hn).imp hf ?_
      rintro ⟨k, rfl, hv, hd⟩
      rw [howed]
      refine ⟨k, hinum k, (hvalid k).trans hv, hd.imp_right fun hp => ?_⟩
      rw [hcount]
      exact ⟨hpins k hp.1, hp.2⟩
    by_cases hji : j = i
    · subst hji
      rcases hlink hn with ⟨hn', hf⟩ | ⟨hp, hc⟩
      · exact hold hn' fun e => by rw [hf]; exact e
      · refine .inr ⟨ip, (hinum ip).trans hi, (hvalid ip).trans hval, .inr ?_⟩
        rw [hcount]
        exact ⟨hp, hc⟩
    · rw [hother j hji] at hn
      exact hold hn fun e => hfresh j e hji

/-- The last reference to an inode without links is dropped, and the inode freed. -/
theorem free (hs : Slots sb t T I V (h.take ip i)) (hlock : ¬ h.Locks ip) (href1 : (I ip).ref = 1)
    (hcount : h.count ip = 0) (hother : ∀ j, j ≠ i → W.ino j = V.ino j)
    (htype : (W.ino i).type = 0) (hself : (I' ip).ref = 0 ∧ (I' ip).lock = none)
    (hne : ∀ j, j ≠ ip → I' j = I j) : Slots sb t T I' W h := by
  have hi : (I ip).inum = i := hs.name (ip, i) (.inl List.mem_cons_self)
  have hu : (h.take ip i).Used T ip := hs.used_of_mem (x := (ip, i)) List.mem_cons_self
  have href := hs.ref ip
  have howed := hs.owed ip
  rw [Hand.count_take_self] at href
  have hall : h.owed.count ip = T.users ip := by
    simp only [Hand.take] at *
    omega
  have hnot : ¬ h.Used T ip := by
    unfold Hand.Used
    omega
  have hx : ∀ x ∈ h.refs, x.1 ≠ ip := fun x hx e => by
    have := Hand.count_pos hx
    rw [e] at this
    omega
  have hl : ∀ x ∈ h.locks, x.1 ≠ ip := fun x hx e => hlock ⟨x, hx, e⟩
  -- the other slots in use hold other inodes
  have hji : ∀ j, j ≠ ip → 0 < (I j).ref → (I j).inum ≠ i := fun j hj hr e =>
    hj (hs.eq_of_inum hu ((hs.used_iff j).2 hr) (e.trans hi.symm))
  have hpos : ∀ j, h.owed.count j < T.users j → 0 < (I j).ref := fun j hj => by
    have := hs.ref j
    simp only [Hand.take] at *
    omega
  refine ⟨fun j => ?_, hs.owed, fun j => ?_, hs.nodup, fun x hx => ?_, fun x hx' => ?_,
    fun j hj => ?_, fun j k hj hk => ?_, fun j hj hv => ?_, fun j hj => ?_, fun f j hf hw hj => ?_,
    fun j hj htj hn => ?_⟩
  · by_cases hj : j = ip
    · rw [hj, hself.1]
      omega
    · have := hs.ref j
      rw [Hand.count_take_of_ne hj] at this
      rw [hne j hj]
      exact this
  · by_cases hj : j = ip
    · rw [hj, hself.2, if_neg hlock]
    · rw [hne j hj]
      exact hs.lock j
  · have hxip := hl x hx
    have hh := hs.held x hx
    unfold Hand.Used at hh ⊢
    rw [Hand.count_take_of_ne hxip] at hh
    rw [hne x.1 hxip]
    exact hh
  · rcases hx' with hx' | hx'
    · rw [hne x.1 (hx x hx')]
      exact hs.name x (.inl (List.mem_cons_of_mem _ hx'))
    · rw [hne x.1 (hl x hx')]
      exact hs.name x (.inr hx')
  · have hjp : j ≠ ip := by
      rintro rfl
      omega
    rw [hne j hjp] at hj ⊢
    exact hs.named j hj
  · have hjp : j ≠ ip := by
      rintro rfl
      omega
    have hkp : k ≠ ip := by
      rintro rfl
      omega
    rw [hne j hjp] at hj ⊢
    rw [hne k hkp] at hk ⊢
    exact hs.uniq j k hj hk
  · have hjp : j ≠ ip := by
      rintro rfl
      omega
    rw [hne j hjp] at hj hv ⊢
    rw [hother _ (hji j hjp hj)]
    exact hs.copy j hj hv
  · have hjp : j ≠ ip := by
      rintro rfl
      omega
    rw [hne j hjp, hother _ (hji j hjp (hpos j hj))]
    exact hs.live j hj
  · have hjp : j ≠ ip := by
      rintro rfl
      omega
    rw [hne j hjp, hother _ (hji j hjp (hpos j hj))]
    exact hs.writable f j hf hw hj
  · have hji' : j ≠ i := by
      rintro rfl
      exact htj htype
    rw [hother j hji'] at htj hn
    refine (hs.orphan j hj htj hn).imp_right ?_
    rintro ⟨k, rfl, hv, hd⟩
    have hkp : k ≠ ip := by
      rintro rfl
      exact hji' hi
    rw [Hand.count_take_of_ne hkp] at hd
    exact ⟨k, by rw [hne k hkp], by rw [hne k hkp]; exact hv, hd⟩

/-- A free inode is allocated. -/
theorem born (hs : Slots sb t T I V h) (hfree : (V.ino i).type = 0)
    (hother : ∀ j, j ≠ i → W.ino j = V.ino j) :
    Slots sb t T I W { h with fresh := insert i h.fresh } := by
  have hne : ∀ j, (V.ino (I j).inum).type ≠ 0 → W.ino (I j).inum = V.ino (I j).inum := fun j hj =>
    hother _ fun e => hj (by rw [e]; exact hfree)
  refine ⟨hs.ref, hs.owed, hs.lock, hs.nodup, hs.held, hs.name, hs.named, hs.uniq,
    fun j hj hv => ?_, fun j hj => ?_, fun f j hf hw hj => ?_, fun j hj ht hn => ?_⟩
  · obtain ⟨hd, ht⟩ := hs.copy j hj hv
    rw [hne j ht]
    exact ⟨hd, ht⟩
  · rw [hne j (hs.live j hj)]
    exact hs.live j hj
  · rw [hne j (hs.live j hj)]
    exact hs.writable f j hf hw hj
  · by_cases hji : j = i
    · exact .inl (Finset.mem_insert.2 (.inl hji))
    · rw [hother j hji] at ht hn
      exact (hs.orphan j hj ht hn).imp_left Finset.mem_insert_of_mem

end Slots

/-- What the counts of references say about the files and pipes. -/
structure Files (T : Tab) (h : Hand) : Prop where
  ref : ∀ f, (T.ftable f).ref + h.fowed.count f = T.fds f + h.files.count f
  closed : ∀ f, (T.ftable f).ref = 0 → (T.ftable f).type = .none
  typed : ∀ f, h.fowed.count f < T.fds f → (T.ftable f).type ≠ .none
  ends : Exact T.endOf T.EndOpen
  page : ∀ a v, T.pipe a = some v → v.readopen = true ∨ v.writeopen = true

theorem Files.withAux {T : Tab} {h : Hand} (hf : Files T h) (a : FsAux) : Files (T.withAux a) h :=
  ⟨hf.ref, hf.closed, hf.typed, hf.ends, hf.page⟩

theorem Files.congr {T : Tab} {h h' : Hand} (hf : Files T h) (h₁ : h'.files = h.files)
    (h₂ : h'.fowed = h.fowed) : Files T h' :=
  ⟨by rw [h₁, h₂]; exact hf.ref, hf.closed, by rw [h₂]; exact hf.typed, hf.ends, hf.page⟩

end Xv6
