import Xv6.Fs.Sysfile

/-!
# The volume on the disk

What the blocks of a disk mean: the inodes, the free map and the data blocks (`Vol`). On a disk
with the layout of the superblock the three regions do not overlap, so the code's writes to inode
blocks, to the free map and to data blocks are updates of one component each (`Shows`). From here
on a state of the file system is seen as its tables in memory and its volume.

`loose` are the data blocks whose buffer and logged contents differ.
-/

namespace Xv6

open Conc Eff

/-- The first data block. -/
def dataStart (sb : Superblock) : ℕ := sb.size - sb.nblocks

/-- `b` is a data block. -/
def IsData (sb : Superblock) (b : ℕ) : Prop := dataStart sb ≤ b ∧ b < sb.size

instance (sb : Superblock) (b : ℕ) : Decidable (IsData sb b) := inferInstanceAs (Decidable (_ ∧ _))

/-- The superblock describes inode blocks, then the blocks of the free map, then data blocks. -/
structure Layout (sb : Superblock) : Prop where
  inodes : sb.inodestart + (sb.ninodes / ipb + 1) ≤ sb.bmapstart
  bitmap : sb.bmapstart + (sb.size / bpb + 1) ≤ dataStart sb
  size : sb.size < 256 ^ 4
  root : rootino < sb.ninodes

namespace Layout

variable {sb : Superblock} {i j b c : ℕ}

theorem iblock_lt (h : Layout sb) (hi : i < sb.ninodes) : iblock i sb < sb.bmapstart := by
  have := h.inodes
  have : i / ipb ≤ sb.ninodes / ipb := Nat.div_le_div_right hi.le
  unfold iblock
  omega

theorem bblock_lt (h : Layout sb) (hb : b < sb.size) : bblock b sb < dataStart sb := by
  have := h.bitmap
  have : b / bpb ≤ sb.size / bpb := Nat.div_le_div_right hb.le
  unfold bblock
  omega

theorem le_bblock : sb.bmapstart ≤ bblock b sb := Nat.le_add_left _ _

theorem iblock_ne_bblock (h : Layout sb) (hi : i < sb.ninodes) : iblock i sb ≠ bblock b sb :=
  (lt_of_lt_of_le (h.iblock_lt hi) le_bblock).ne

theorem iblock_lt_dataStart (h : Layout sb) (hi : i < sb.ninodes) : iblock i sb < dataStart sb := by
  have h₁ := h.iblock_lt hi
  have h₂ := h.bitmap
  simp only [bpb] at h₂
  omega

theorem iblock_ne (h : Layout sb) (hi : i < sb.ninodes) (hb : IsData sb b) : iblock i sb ≠ b :=
  (lt_of_lt_of_le (h.iblock_lt_dataStart hi) hb.1).ne

theorem bblock_ne (h : Layout sb) (hc : c < sb.size) (hb : IsData sb b) : bblock c sb ≠ b :=
  (lt_of_lt_of_le (h.bblock_lt hc) hb.1).ne

theorem ne_zero (h : Layout sb) (hb : IsData sb b) : b ≠ 0 := by
  have h₁ := h.bitmap
  have h₂ := hb.1
  simp only [bpb] at h₁
  omega

theorem lt (h : Layout sb) (hb : IsData sb b) : b < 256 ^ 4 := hb.2.trans h.size

end Layout

/-- Two inodes of one block have different indices in it. -/
theorem index_ne {sb : Superblock} {i j : ℕ} (h : iblock j sb = iblock i sb) (hne : j ≠ i) :
    j % ipb ≠ i % ipb := by
  simp only [iblock, ipb] at h ⊢
  omega

theorem bit_index_ne {sb : Superblock} {b c : ℕ} (h : bblock c sb = bblock b sb) (hne : c ≠ b) :
    c % bpb ≠ b % bpb := by
  simp only [bblock, bpb] at h ⊢
  omega

/-! ## Volumes -/

/-- The meaning of a disk. -/
structure Vol where
  ino : ℕ → Dinode
  bit : ℕ → Bool
  blk : ℕ → Block
  loose : ℕ → Prop

namespace Vol

/-- The volume with an inode replaced. -/
def setIno (V : Vol) (i : ℕ) (d : Dinode) : Vol := { V with ino := Function.update V.ino i d }

/-- The volume with a bit of the free map replaced. -/
def setBit (V : Vol) (b : ℕ) (v : Bool) : Vol := { V with bit := Function.update V.bit b v }

/-- The volume with the contents of a data block replaced. -/
def setBlk (V : Vol) (b : ℕ) (x : Block) : Vol :=
  { V with blk := Function.update V.blk b x, loose := Function.update V.loose b False }

/-- The volume after `balloc` of a block: marked and zeroed. -/
abbrev alloc (V : Vol) (b : ℕ) : Vol := (V.setBit b true).setBlk b (.zero _)

/-- There is no free block. -/
def Full (V : Vol) (sb : Superblock) : Prop := ∀ b < sb.size, V.bit b = true

/-- The volume after stores to the buffer of a data block. -/
def setLoose (V : Vol) (b : ℕ) (p : Prop) : Vol := { V with loose := Function.update V.loose b p }

@[ext]
theorem ext {V W : Vol} (h₁ : ∀ i, V.ino i = W.ino i) (h₂ : ∀ b, V.bit b = W.bit b)
    (h₃ : ∀ b, V.blk b = W.blk b) (h₄ : ∀ b, V.loose b ↔ W.loose b) : V = W := by
  cases V
  cases W
  congr 1
  · exact funext h₁
  · exact funext h₂
  · exact funext h₃
  · exact funext fun b => propext (h₄ b)

end Vol

/-- The volume of a state. -/
def vol (s : FsSt) : Vol where
  ino i := if i < s.mem.sb.ninodes then getDinode (s.logged (iblock i s.mem.sb)) (i % ipb) else .zero
  bit b := if b < s.mem.sb.size then getBit (s.logged (bblock b s.mem.sb)) (b % bpb) else false
  blk b := if IsData s.mem.sb b then s.logged b else .zero _
  loose b := IsData s.mem.sb b ∧ s.cached b ≠ s.logged b

/-- A state has tables `m` and volume `V`, and its buffers of inode and free-map blocks are as
logged. -/
structure Shows (s : FsSt) (m : Mem) (V : Vol) : Prop where
  mem : s.mem = m
  vol : vol s = V
  layout : Layout m.sb
  tight : ∀ b < dataStart m.sb, s.cached b = s.logged b

namespace Shows

variable {s : FsSt} {m : Mem} {V : Vol} {i b : ℕ} {d : Dinode} {x : Block}

theorem ino_eq (h : Shows s m V) (hi : i < m.sb.ninodes) :
    getDinode (s.logged (iblock i m.sb)) (i % ipb) = V.ino i := by
  rw [← h.vol, ← h.mem] at *
  exact (if_pos hi).symm

theorem bit_eq (h : Shows s m V) (hb : b < m.sb.size) :
    getBit (s.logged (bblock b m.sb)) (b % bpb) = V.bit b := by
  rw [← h.vol, ← h.mem] at *
  exact (if_pos hb).symm

theorem blk_eq (h : Shows s m V) (hb : IsData m.sb b) : s.logged b = V.blk b := by
  rw [← h.vol, ← h.mem] at *
  exact (if_pos hb).symm

theorem cached_eq (h : Shows s m V) (hb : IsData m.sb b) (hl : ¬ V.loose b) :
    s.cached b = s.logged b := by
  rw [← h.vol] at hl
  rw [← h.mem] at hb
  exact not_not.1 fun hne => hl ⟨hb, hne⟩

theorem fits (h : Shows s m V) : (V.ino i).Fits := by
  rw [← h.vol]
  show (if _ then _ else _ : Dinode).Fits
  split
  · exact fits_getDinode _ _
  · exact ⟨by decide, by decide, by decide, by decide, by decide, fun _ => by simp [Dinode.zero]⟩

/-- A store to the tables. -/
theorem withMem (h : Shows s m V) {m' : Mem} (hsb : m'.sb = m.sb) : Shows (s.withMem m') m' V := by
  refine ⟨rfl, ?_, hsb ▸ h.layout, hsb ▸ h.tight⟩
  rw [← h.vol]
  simp only [Xv6.vol, FsSt.withMem, hsb, h.mem]

/-- A write to the inode block of inode `i`. -/
theorem write_ino (h : Shows s m V) (hi : i < m.sb.ninodes) (hd : d.Fits) :
    Shows (s.write (iblock i m.sb) (putDinode (s.logged (iblock i m.sb)) (i % ipb) d)) m
      (V.setIno i d) := by
  obtain ⟨rfl, rfl, hL, ht⟩ := h
  refine ⟨rfl, ?_, hL, fun b hb => by simp only [FsSt.write, ht b hb]⟩
  ext1 j
  · by_cases hji : j = i
    · subst hji
      simp [Xv6.vol, FsSt.write, Vol.setIno, hi, getDinode_putDinode _ (Nat.mod_lt _ _) hd]
    · by_cases hb : iblock j s.mem.sb = iblock i s.mem.sb
      · simp [Xv6.vol, FsSt.write, Vol.setIno, hji, hb,
          getDinode_putDinode_of_ne _ (index_ne hb hji)]
      · simp [Xv6.vol, FsSt.write, Vol.setIno, hji, hb]
  · simp [Xv6.vol, FsSt.write, Vol.setIno, (hL.iblock_ne_bblock hi).symm]
  · by_cases hb : IsData s.mem.sb j
    · simp [Xv6.vol, FsSt.write, Vol.setIno, hb, (hL.iblock_ne hi hb).symm]
    · simp [Xv6.vol, FsSt.write, Vol.setIno, hb]
  · by_cases hb : IsData s.mem.sb j
    · simp [Xv6.vol, FsSt.write, Vol.setIno, hb, (hL.iblock_ne hi hb).symm]
    · simp [Xv6.vol, FsSt.write, Vol.setIno, hb]

/-- A write to the block of the free map with the bit of block `b`. -/
theorem write_bit (h : Shows s m V) (hb : b < m.sb.size) {v : Bool}
    (hx : ∀ c < bpb, getBit x c = if c = b % bpb then v else getBit (s.logged (bblock b m.sb)) c) :
    Shows (s.write (bblock b m.sb) x) m (V.setBit b v) := by
  obtain ⟨rfl, rfl, hL, ht⟩ := h
  refine ⟨rfl, ?_, hL, fun b hb => by simp only [FsSt.write, ht b hb]⟩
  ext1 c
  · by_cases hc : c < s.mem.sb.ninodes
    · simp [Xv6.vol, FsSt.write, Vol.setBit, hc, hL.iblock_ne_bblock hc]
    · simp [Xv6.vol, FsSt.write, Vol.setBit, hc]
  · by_cases hcb : c = b
    · subst hcb
      simp [Xv6.vol, FsSt.write, Vol.setBit, hb, hx _ (Nat.mod_lt _ _)]
    · by_cases hbb : bblock c s.mem.sb = bblock b s.mem.sb
      · simp [Xv6.vol, FsSt.write, Vol.setBit, hcb, hbb, hx _ (Nat.mod_lt _ _),
          bit_index_ne hbb hcb]
      · simp [Xv6.vol, FsSt.write, Vol.setBit, hcb, hbb]
  · by_cases hd : IsData s.mem.sb c
    · simp [Xv6.vol, FsSt.write, Vol.setBit, hd, (hL.bblock_ne hb hd).symm]
    · simp [Xv6.vol, FsSt.write, Vol.setBit, hd]
  · by_cases hd : IsData s.mem.sb c
    · simp [Xv6.vol, FsSt.write, Vol.setBit, hd, (hL.bblock_ne hb hd).symm]
    · simp [Xv6.vol, FsSt.write, Vol.setBit, hd]

/-- A logged write to a data block. -/
theorem write_data (h : Shows s m V) (hb : IsData m.sb b) (x : Block) :
    Shows (s.write b x) m (V.setBlk b x) := by
  obtain ⟨rfl, rfl, hL, ht⟩ := h
  refine ⟨rfl, ?_, hL, fun b hb => by simp only [FsSt.write, ht b hb]⟩
  ext1 c
  · by_cases hc : c < s.mem.sb.ninodes
    · simp [Xv6.vol, FsSt.write, Vol.setBlk, hc, hL.iblock_ne hc hb]
    · simp [Xv6.vol, FsSt.write, Vol.setBlk, hc]
  · by_cases hc : c < s.mem.sb.size
    · simp [Xv6.vol, FsSt.write, Vol.setBlk, hc, hL.bblock_ne hc hb]
    · simp [Xv6.vol, FsSt.write, Vol.setBlk, hc]
  · by_cases hcb : c = b
    · subst hcb
      simp [Xv6.vol, FsSt.write, Vol.setBlk, hb]
    · simp [Xv6.vol, FsSt.write, Vol.setBlk, hcb]
  · by_cases hcb : c = b
    · subst hcb
      simp [Xv6.vol, FsSt.write, Vol.setBlk]
    · simp [Xv6.vol, FsSt.write, Vol.setBlk, hcb]

/-- Stores to the buffer of a data block. -/
theorem spoil (h : Shows s m V) (hb : IsData m.sb b) (x : Block) :
    Shows (s.spoil b x) m (V.setLoose b (x ≠ V.blk b)) := by
  obtain ⟨rfl, rfl, hL, ht⟩ := h
  refine ⟨rfl, ?_, hL, fun c hc => ?_⟩
  · ext1 c
    · rfl
    · rfl
    · rfl
    · by_cases hcb : c = b
      · subst hcb
        simp [Xv6.vol, FsSt.spoil, Vol.setLoose, hb]
      · simp [Xv6.vol, FsSt.spoil, Vol.setLoose, hcb]
  · have hcb : c ≠ b := (lt_of_lt_of_le hc hb.1).ne
    simp only [FsSt.spoil, if_neg hcb, ht c hc]

end Shows

end Xv6
