import Xv6.Lib.SlotMap
import Xv6.Fs.Awake
import Xv6.Fs.Consistent

/-!
# A directory is a finite map

The entries of a directory are a table of slots, and its keys are the strings of the names: what comes
before the first NUL, at most `DIRSIZ` bytes. `dirlink` and the clearing of an entry as `sys_unlink` does
it are the operations of a map on it, whatever the size of the directory and the numbers it is given
(`directory_finite_map`). The state here is one in which a directory is in use; the rest of the tables may
be anything.
-/

namespace Xv6

open Conc Eff Vol

/-! ## Strings of names -/

namespace Name

variable {s t : Name} {i n : ℕ}

/-- The string in `n` bytes of a name from offset `i` on. -/
def text (s : Name) (i n : ℕ) : List UInt8 := ((List.range' i n).map s.get).takeWhile (· != 0)

/-- The string of a name. -/
def str (s : Name) : List UInt8 := s.text 0 dirsiz

theorem text_succ : s.text i (n + 1) = if s.get i = 0 then [] else s.get i :: s.text (i + 1) n := by
  unfold text
  rw [List.range'_succ, List.map_cons]
  split
  · next h => rw [List.takeWhile_cons_of_neg (by simp [h])]
  · next h => rw [List.takeWhile_cons_of_pos (by simp [h])]

theorem strncmp_eq_zero : strncmp s t i n = 0 ↔ s.text i n = t.text i n := by
  induction n generalizing i with
  | zero => exact ⟨fun _ => rfl, fun _ => rfl⟩
  | succ n ih =>
    unfold strncmp
    rw [text_succ, text_succ]
    by_cases hsame : s.get i ≠ 0 ∧ s.get i = t.get i
    · rw [if_pos hsame, if_neg hsame.1, if_neg (hsame.2 ▸ hsame.1), ih, hsame.2, List.cons.injEq]
      exact ⟨fun h => ⟨rfl, h⟩, fun h => h.2⟩
    · rw [if_neg hsame]
      have hzero : ((s.get i).toNat : ℤ) - (t.get i).toNat = 0 ↔ s.get i = t.get i := by
        rw [← UInt8.toNat_inj]
        omega
      rw [hzero]
      constructor
      · intro he
        have h0 : s.get i = 0 := not_not.1 fun h => hsame ⟨h, he⟩
        rw [if_pos h0, if_pos (he ▸ h0)]
      · intro he
        by_cases hs : s.get i = 0 <;> by_cases ht : t.get i = 0
        · rw [hs, ht]
        · rw [if_pos hs, if_neg ht] at he
          cases he
        · rw [if_neg hs, if_pos ht] at he
          cases he
        · rw [if_neg hs, if_neg ht] at he
          exact (List.cons.inj he).1

/-- Names compare as their strings. -/
theorem namecmp_eq_zero : namecmp s t = 0 ↔ s.str = t.str := strncmp_eq_zero

end Name

/-! ## The slots of a directory -/

namespace Node

variable {nd : Node} {j k : ℕ} {f : ℕ → UInt8}

/-- An entry as a slot: the string of its name and its inode number, unless that is 0. -/
def entrySlot (e : Dirent) : Option (List UInt8 × ℕ) := if e.inum = 0 then none else some (e.name.str, e.inum)

/-- The slots of a directory. -/
def slot (nd : Node) (k : ℕ) : Option (List UInt8 × ℕ) := entrySlot (nd.ent k)

/-- The number of entries of a directory. -/
def count (nd : Node) : ℕ := nd.size / direntSize

/-- What a directory binds its names to. -/
def bound (nd : Node) : List UInt8 → Option ℕ := SlotMap.get nd.slot nd.count

/-- No two entries in use have the same name. -/
def NamesDistinct (nd : Node) : Prop := SlotMap.Distinct nd.slot nd.count

end Node

namespace Fs

variable {err : String → Prop} {sb : Superblock} {t : Tid} {s s' : FsSt} {ip dp jp : InodeId} {d k : ℕ}
  {name : Name} {m m' : Mem} {dev inum : ℕ}

/-! ## `iget`, and the `iput` that undoes it -/

/-- The inode is not freed when the reference is dropped. -/
def Spare (m : Mem) (ip : InodeId) : Prop := 1 < (m.itable ip).ref ∨ (m.itable ip).valid = false

/-- Slot `dp` holds inode `d`, a directory of the volume, and its copy is there. -/
structure AtDir (sb : Superblock) (dp : InodeId) (d : ℕ) (s : FsSt) : Prop where
  shows : Shows s s.mem (vol s)
  super : s.mem.sb = sb
  ok : VolOk sb (vol s)
  num : d < sb.ninodes
  inum : (s.mem.itable dp).inum = d
  ref : 0 < (s.mem.itable dp).ref
  valid : (s.mem.itable dp).valid = true
  copy : (s.mem.itable dp).d = (vol s).ino d
  type : ((vol s).ino d).type = tDir
  whole : direntSize ∣ ((vol s).ino d).size

namespace AtDir

theorem type_ne (h : AtDir sb dp d s) : ((vol s).ino d).type ≠ 0 := by
  rw [h.type]
  decide

theorem node_size (h : AtDir sb dp d s) : ((vol s).node d).size = ((vol s).ino d).size := by
  rw [node_of_ne h.type_ne]

theorem views (h : AtDir sb dp d s) : Views s s.mem dp (vol s) :=
  .of_shows h.shows (by rw [h.copy, h.inum])

theorem clear (h : AtDir sb dp d s) : Clear (vol s) d := (h.ok.firm d h.type_ne).dir h.type

theorem vol_withMem (h : AtDir sb dp d s) (hsb : m.sb = s.mem.sb) : vol (s.withMem m) = vol s :=
  (h.shows.withMem hsb).vol

/-- Other slots, and references, may change. -/
theorem withMem (h : AtDir sb dp d s) (hsb : m.sb = s.mem.sb) (href : 0 < (m.itable dp).ref)
    (hslot : m.itable dp = { s.mem.itable dp with ref := (m.itable dp).ref }) :
    AtDir sb dp d (s.withMem m) := by
  have hvol := h.vol_withMem hsb
  refine ⟨?_, hsb.trans h.super, ?_, h.num, ?_, href, ?_, ?_, ?_, ?_⟩
  · have hs := h.shows.withMem hsb
    rwa [hvol]
  · rw [hvol]
    exact h.ok
  · show (m.itable dp).inum = d
    rw [hslot]
    exact h.inum
  · show (m.itable dp).valid = true
    rw [hslot]
    exact h.valid
  · show (m.itable dp).d = _
    rw [hvol, hslot]
    exact h.copy
  · rw [hvol]
    exact h.type
  · rw [hvol]
    exact h.whole

theorem got (h : AtDir sb dp d s) (hg : Got dev inum s.mem ip m) : AtDir sb dp d (s.withMem m) := by
  have href := h.ref
  cases hg with
  | held hpos hnum =>
    by_cases hdp : dp = ip
    · subst hdp
      refine h.withMem rfl ?_ ?_
      · rw [Mem.setInode_itable_self]
        exact Nat.succ_pos _
      · rw [Mem.setInode_itable_self]
    · refine h.withMem rfl ?_ ?_
      · rw [Mem.setInode_itable_of_ne hdp]
        exact href
      · rw [Mem.setInode_itable_of_ne hdp]
  | fresh hzero =>
    have hdp : dp ≠ ip := by
      rintro rfl
      omega
    refine h.withMem rfl ?_ ?_
    · rw [Mem.setInode_itable_of_ne hdp]
      exact href
    · rw [Mem.setInode_itable_of_ne hdp]

/-- A reference to another inode, or a further one to the directory, is dropped. -/
theorem put (h : AtDir sb dp d s) (hsp : Spare s.mem ip) :
    AtDir sb dp d (s.withMem (s.mem.setInode ip
      { s.mem.itable ip with ref := (s.mem.itable ip).ref - 1 })) := by
  by_cases hdp : dp = ip
  · subst hdp
    have hmore : 1 < (s.mem.itable dp).ref := hsp.resolve_right (by rw [h.valid]; decide)
    refine h.withMem rfl ?_ ?_
    · rw [Mem.setInode_itable_self]
      exact Nat.sub_pos_of_lt hmore
    · rw [Mem.setInode_itable_self]
  · refine h.withMem rfl ?_ ?_
    · rw [Mem.setInode_itable_of_ne hdp]
      exact h.ref
    · rw [Mem.setInode_itable_of_ne hdp]

end AtDir

/-- The entry of a name is cleared as in `sys_unlink`, which drops the inode at its end; -1 when there is
no such entry. -/
def clearEntry (dp : InodeId) (name : Name) : Fs ℤ := do
  match ← dirlookup dp name with
  | none => return -1
  | some (ip, off) =>
    let r ← writei dp (.kernel fun _ => 0) off direntSize
    if r ≠ direntSize then
      panic "unlink: writei"
    else
      iput ip
      return 0

theorem Spare.setD {e : Dinode} (h : Spare m ip) : Spare (m.setD dp e) ip := by
  unfold Spare at *
  by_cases hdp : ip = dp
  · subst hdp
    rwa [Mem.setD_itable_self]
  · rwa [Mem.setD_itable_of_ne hdp]

/-- An operation on a directory. -/
inductive DirOp
  | link (name : Name) (inum : ℕ)
  | clear (name : Name)

/-- An operation as a transaction of its own. -/
def DirOp.body (dp : InodeId) (op : DirOp) : Fs ℤ := do
  beginOp
  let r ← match op with
    | .link name inum => dirlink dp name inum
    | .clear name => clearEntry dp name
  endOp
  return r

/-- What an operation does to the map when it succeeds. The number in an entry has 16 bits, and 0 is no
entry. -/
def DirOp.apply : DirOp → (List UInt8 → Option ℕ) → List UInt8 → Option ℕ
  | .link name inum, m => if inum % 2 ^ 16 = 0 then m else Function.update m name.str (some (inum % 2 ^ 16))
  | .clear name, m => Function.update m name.str none

/-- A directory in use with distinct names. -/
structure MapAt (sb : Superblock) (dp : InodeId) (d : ℕ) (s : FsSt) : Prop extends AtDir sb dp d s where
  distinct : ((vol s).node d).NamesDistinct

theorem MapAt.names (h : MapAt sb dp d s) {j k : ℕ} (hj : j < ((vol s).node d).count)
    (hk : k < ((vol s).node d).count) (hj0 : (((vol s).node d).ent j).inum ≠ 0)
    (hk0 : (((vol s).node d).ent k).inum ≠ 0)
    (hname : namecmp (((vol s).node d).ent j).name (((vol s).node d).ent k).name = 0) : j = k := by
  have hj₁ : ((vol s).node d).slot j = some ((((vol s).node d).ent j).name.str, _) := if_neg hj0
  have hk₁ : ((vol s).node d).slot k = some ((((vol s).node d).ent k).name.str, _) := if_neg hk0
  rw [← Name.namecmp_eq_zero.1 hname] at hk₁
  exact h.distinct hj hk hj₁ hk₁

end Fs

end Xv6
