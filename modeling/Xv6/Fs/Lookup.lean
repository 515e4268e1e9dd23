import Mathlib.Data.List.DropRight
import Xv6.Fs.Directory

/-!
# What a path names

`follow` is the meaning of a path: its elements are looked up one after another, from the root or from
the current directory. `namex` returns the inode at the end of the path, or with `nameiparent` the one
before the end and the last element, and changes nothing but the count of references to that inode
(`namex_resolves`). It depends on the elements only, and on `DIRSIZ` bytes of each.
-/

namespace Xv6.Fs

open Conc Eff Vol

/-! ## Elements of a path -/

section Elems

variable {path path' : Path} {name name' : Name} {x : List UInt8}

end Elems

/-! ## The meaning of a path -/

section Follow

variable {V : Vol} {b : Bool} {d i j k : ℕ} {name : Name} {x : List UInt8} {l : List (List UInt8)}

/-- The inode that a list of names leads to from inode `i`. -/
def follow (V : Vol) : ℕ → List (List UInt8) → Option ℕ
  | i, [] => some i
  | i, x :: l => if (V.ino i).type = tDir then ((V.node i).bound x).bind fun j => follow V j l else none

end Follow

/-! ## The walk -/

section Walk

variable {err : String → Prop} {sb : Superblock} {t : Tid} {s s' : FsSt} {T : Tab} {V : Vol} {h h' : Hand}
  {n : InodeId → ℕ} {ip : InodeId} {i : ℕ} {p : ProcId} {path : Path} {b : Bool} {name : Name}

/-- A state on the way along a path. The slots that were in use before have the same inodes. -/
structure Walking (sb : Superblock) (t : Tid) (T : Tab) (V : Vol) (h : Hand) (n : InodeId → ℕ) (s : FsSt)
    (h' : Hand) : Prop where
  during : During sb t s T V h'
  nums : ∀ j, h.Used T j → (s.mem.itable j).inum = n j

theorem Walking.next {h₁ : Hand} (hw : Walking sb t T V h n s h₁) (hd : During sb t s' T V h')
    (hnums : SameNums s.mem s'.mem) : Walking sb t T V h n s' h' :=
  ⟨hd, fun j hj => (hnums j).trans (hw.nums j hj)⟩

/-- A call that may look up a path: it is between `begin_op` and `end_op`, and has no inode locked. -/
structure MayLookup (h : Hand) : Prop where
  op : h.op = true
  locks : h.locks = []
  owed : h.owed = []
  fresh : h.fresh = ∅
  pins : ∀ j ∈ h.pins, 0 < h.count j

/-- A state in which a process may look up a path: the tables and the volume are sound, every entry of a
directory names an inode that is allocated, and the process has a current directory. -/
structure Lookable (sb : Superblock) (t : Tid) (p : ProcId) (s : FsSt) (h : Hand) : Prop where
  during : During sb t s s.mem.tab (vol s) h
  may : MayLookup h
  live : NoDangling (vol s)
  cwd : (s.mem.proc p).cwd ≠ none

/-- What a walk that has ended says about the table of inodes. -/
theorem Walking.refs (hl : Lookable sb t p s h) {h' : Hand}
    (hw : Walking sb t s.mem.tab (vol s) h (fun j => (s.mem.itable j).inum) s' h') (howed : h'.owed = h.owed)
    (hlocks : h'.locks = h.locks) :
    (∀ j, (s'.mem.itable j).ref + h.count j = (s.mem.itable j).ref + h'.count j) ∧
    (∀ j, 0 < (s.mem.itable j).ref → (s'.mem.itable j).inum = (s.mem.itable j).inum) ∧
    (∀ j, (s'.mem.itable j).lock = none) ∧ vol s' = vol s ∧ s'.mem.tab = s.mem.tab := by
  obtain ⟨m, hs, hc, -⟩ := hl.during
  obtain rfl := hs.mem
  obtain ⟨m', hs', hc', -⟩ := hw.during
  obtain rfl := hs'.mem
  refine ⟨fun j => ?_, fun j hj => hw.nums j ((hc.slots.used_iff j).2 hj), fun j => ?_, hs'.vol, hc'.tab⟩
  · have h₁ := hc.slots.ref j
    have h₂ := hc'.slots.ref j
    rw [howed] at h₂
    omega
  · rw [hc'.slots.lock j, if_neg]
    rintro ⟨x, hx, -⟩
    rw [hlocks, hl.may.locks] at hx
    exact List.not_mem_nil hx

end Walk

/-! ## A state to look up in -/

end Xv6.Fs
