import Xv6.Fs.Consistent

/-!
# Full tables

What calls do when a table of fixed size is full. A call on names that fails leaves everything as it
was, except an `open` that finds the tables full after it has made its file. A full inode table is
not reported to the caller at all.
-/

namespace Xv6

open Conc Eff Vol Count

namespace Fs

variable {img : ℕ → Block} {sb : Superblock} {s s' : FsSt} {b : Bound} {p : ProcId} {c : Call}

/-! ## Calls that fail -/

/-- The files, the descriptors, the current directories and all counts of references are the same. -/
structure Unchanged (s s' : FsSt) : Prop where
  node : ∀ j, (vol s').node j = (vol s).node j
  proc : s'.mem.proc = s.mem.proc
  ftable : s'.mem.ftable = s.mem.ftable
  pipe : s'.mem.pipe = s.mem.pipe
  ref : ∀ i, (s'.mem.itable i).ref = (s.mem.itable i).ref

theorem Unchanged.type (h : Unchanged s s') (i : ℕ) : ((vol s').ino i).type = ((vol s).ino i).type := by
  rw [← node_type, h.node, node_type]

/-- A file that has been made is still there when no names are removed. -/
theorem Created.type_ne {V W X : Vol} {a a' : FsAux} {d k i : ℕ} {name : Name} {major minor : ℕ}
    (hc : Created sb V a W a' d k i name tFile major minor) (h : NameCalm W X) : (X.ino i).type ≠ 0 := by
  have hnode : W.node i = Node.new tFile major minor := by
    simpa [show ¬ tFile = tDir by decide] using hc.child
  have hi := h i
  rw [hnode] at hi
  rw [← node_type]
  generalize X.node i = n at hi
  cases hi with
  | same =>
    show tFile ≠ 0
    decide
  | freed h0 => exact absurd h0 (by simp [Node.new])
  | wrote _ _ _ _ =>
    show tFile ≠ 0
    decide

/-- A call finds a slot of the inode table as long as more than two are left, when it starts, by open
files and current directories. -/
theorem iget_finds_slot (himg : ImageOk img) (hr : Reach img s) (hen : c.Enabled s.mem p)
    (hroom : (num fun i => 0 < (s.mem.itable i).ref) + 2 < ninode) :
    ¬ Exec (store p) (c.body p) s (.panic "iget: no inodes") := by
  intro hex
  have hs := hr.free himg
  have hbusy : s.mem.tab.busy = num fun i => 0 < (s.mem.itable i).ref := num_congr fun i => by
    have h : (s.mem.itable i).ref = s.mem.tab.users i := hs.core.slots.ref i
    rw [h]
  rcases hs.panic hen hex with h | h | h
  · exact h.2 (by rw [hbusy]; exact hroom)
  · exact absurd h.1 (by decide)
  · exact absurd h.1 (by decide)

theorem iget_finds_slot_emptyImage : ∃ s, Reach Mkfs.emptyImage s ∧
    ¬ Exec (store (0 : ProcId)) ((Call.mkdir (some [97])).body 0) s (.panic "iget: no inodes") := by
  obtain ⟨s, hr, hs⟩ := exists_reach Mkfs.emptyImage []
    (fun s => decide ((Call.mkdir (some [97])).Enabled s.mem 0 ∧
      (num fun i => 0 < (s.mem.itable i).ref) + 2 < ninode)) (by decide +kernel)
  obtain ⟨hen, hroom⟩ := of_decide_eq_true hs
  exact ⟨s, hr, iget_finds_slot Mkfs.imageOk_emptyImage hr hen hroom⟩

/-- An image with nested directories: besides `.` and `..`, directory `i` below 51 has an entry `a` for
directory `i + 1`. The block of directory `i` is `37 + i`. -/
def nestedImage (b : ℕ) : Block :=
  if b = 1 then
    ((((((((Bytes.zero _ : Block).wr 0 4 fsmagic).wr 4 4 100).wr 8 4 62).wr 12 4 52).wr 16 4 31).wr
      20 4 2).wr 24 4 33).wr 28 4 37
  else if b < 33 then .zero _
  else if b < 37 then
    Bytes.ofFn _ fun o =>
      let i := (b - 33) * 16 + o / 64
      if i = 0 then 0
      else match o % 64 with
        | 0 => 1
        | 6 => if i = 51 then 1 else 2
        | 8 => if i = 51 then 32 else 48
        | 12 => UInt8.ofNat (37 + i)
        | _ => 0
  else if b = 37 then (List.range 89).foldl setBit (.zero _)
  else if b < 89 then
    Bytes.ofFn _ fun o =>
      let i := b - 37
      match o with
      | 0 => UInt8.ofNat i
      | 2 => 46
      | 16 => UInt8.ofNat (if i = 1 then 1 else i - 1)
      | 18 => 46
      | 19 => 46
      | 32 => if i = 51 then 0 else UInt8.ofNat (i + 1)
      | 34 => if i = 51 then 0 else 97
      | _ => 0
  else .zero _

/-- A process forks and goes down a directory, again and again; its children stay where they are. -/
def descend (n : ℕ) : List (ProcId × Call) :=
  (List.range n).flatMap fun i => [(0, .fork (Fin.ofNat _ (i + 1))), (0, .chdir (some [97]))]

/-- With 50 processes in 50 directories, the next directory has no slot in the inode table. -/
theorem iget_no_inodes : ∃ s, Reach nestedImage s ∧ (Call.chdir (some [97])).Enabled s.mem 0 ∧
    Exec (store (0 : ProcId)) ((Call.chdir (some [97])).body 0) s (.panic "iget: no inodes") := by
  obtain ⟨s, hr, hs⟩ := exists_reach nestedImage (descend 49)
    (panics 0 (.chdir (some [97])) "iget: no inodes") (by decide +kernel)
  obtain ⟨hen, hex⟩ := exec_of_panics hs
  exact ⟨s, hr, hen, hex⟩

end Fs

end Xv6
