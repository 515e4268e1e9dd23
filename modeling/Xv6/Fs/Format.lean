import Xv6.Block.Device

/-!
# The on-disk format

`fs.h`: the superblock, the inodes packed sixteen to a block, the free map of one bit for a block,
and the directory entries. A `short` or `uint` field is a natural number below `2 ^ 16` or
`2 ^ 32`, its bit pattern.
-/

namespace Xv6

/-- `BSIZE`. -/
abbrev bsize : ℕ := 1024

/-- `NDIRECT`. -/
abbrev ndirect : ℕ := 12

/-- `NINDIRECT`, `BSIZE / sizeof(uint)`. -/
abbrev nindirect : ℕ := 256

/-- `MAXFILE`, in blocks. -/
abbrev maxfile : ℕ := 268

/-- `IPB`, `BSIZE / sizeof(struct dinode)`. -/
abbrev ipb : ℕ := 16

/-- `BPB`, the bits of a block of the free map. -/
abbrev bpb : ℕ := 8192

/-- `DIRSIZ`. -/
abbrev dirsiz : ℕ := 14

/-- `ROOTINO`. -/
abbrev rootino : ℕ := 1

/-- `FSMAGIC`. -/
abbrev fsmagic : ℕ := 0x10203040

/-- `T_DIR`. -/
abbrev tDir : ℕ := 1

/-- `T_FILE`. -/
abbrev tFile : ℕ := 2

/-- `T_DEVICE`. -/
abbrev tDevice : ℕ := 3

/-- `struct superblock`. -/
structure Superblock where
  magic : ℕ
  size : ℕ
  nblocks : ℕ
  ninodes : ℕ
  nlog : ℕ
  logstart : ℕ
  inodestart : ℕ
  bmapstart : ℕ
  deriving DecidableEq

/-- The superblock in a block. -/
def getSuperblock (x : Block) : Superblock where
  magic := x.rd 0 4
  size := x.rd 4 4
  nblocks := x.rd 8 4
  ninodes := x.rd 12 4
  nlog := x.rd 16 4
  logstart := x.rd 20 4
  inodestart := x.rd 24 4
  bmapstart := x.rd 28 4

/-- `IBLOCK(i, sb)`. -/
def iblock (i : ℕ) (sb : Superblock) : ℕ := i / ipb + sb.inodestart

/-- `BBLOCK(b, sb)`. -/
def bblock (b : ℕ) (sb : Superblock) : ℕ := b / bpb + sb.bmapstart

/-! ## Inodes -/

instance neZero_addrs : NeZero (13 : ℕ) := ⟨by decide⟩

theorem lt_addrs {k : ℕ} (h : k < ndirect) : k < 13 := Nat.lt_succ_of_lt h

/-- `struct dinode`, also the part of `struct inode` that is a copy of it. -/
structure Dinode where
  type : ℕ
  major : ℕ
  minor : ℕ
  nlink : ℕ
  size : ℕ
  addrs : Fin 13 → ℕ

namespace Dinode

/-- The inode of zeros. -/
def zero : Dinode := ⟨0, 0, 0, 0, 0, fun _ => 0⟩

/-- The values of the fields are those of `short` and `uint` fields. -/
structure Fits (d : Dinode) : Prop where
  type : d.type < 256 ^ 2
  major : d.major < 256 ^ 2
  minor : d.minor < 256 ^ 2
  nlink : d.nlink < 256 ^ 2
  size : d.size < 256 ^ 4
  addrs : ∀ k, d.addrs k < 256 ^ 4

/-- The inode with another block address. -/
def setAddr (d : Dinode) (k : Fin 13) (a : ℕ) : Dinode :=
  { d with addrs := fun j => if j = k then a else d.addrs j }

end Dinode

/-- The bytes of `addrs[]`. -/
def addrBytes (f : Fin 13 → ℕ) (j : ℕ) : UInt8 :=
  if h : j / 4 < 13 then UInt8.ofNat (f ⟨j / 4, h⟩ / 256 ^ (j % 4) % 256) else 0

/-- The inode at index `k` of a block. -/
def getDinode (x : Block) (k : ℕ) : Dinode where
  type := x.rd (64 * k) 2
  major := x.rd (64 * k + 2) 2
  minor := x.rd (64 * k + 4) 2
  nlink := x.rd (64 * k + 6) 2
  size := x.rd (64 * k + 8) 4
  addrs a := x.rd (64 * k + 12 + 4 * a) 4

/-- The block with the inode at index `k` replaced. -/
def putDinode (x : Block) (k : ℕ) (d : Dinode) : Block :=
  (((((x.wr (64 * k) 2 d.type).wr (64 * k + 2) 2 d.major).wr (64 * k + 4) 2 d.minor).wr
    (64 * k + 6) 2 d.nlink).wr (64 * k + 8) 4 d.size).blit (64 * k + 12) 52 (addrBytes d.addrs)

theorem addrBytes_of_lt (f : Fin 13 → ℕ) (k : Fin 13) {i : ℕ} (h : i < 4) :
    addrBytes f (4 * k + i) = UInt8.ofNat (f k / 256 ^ i % 256) := by
  have hd : (4 * k.val + i) / 4 = k := by omega
  have hm : (4 * k.val + i) % 4 = i := by omega
  have hk : (⟨(4 * k.val + i) / 4, by omega⟩ : Fin 13) = k := Fin.ext hd
  rw [addrBytes, dif_pos (by omega), hk, hm]

theorem fits_getDinode (x : Block) (k : ℕ) : (getDinode x k).Fits :=
  ⟨x.rd_lt _ _, x.rd_lt _ _, x.rd_lt _ _, x.rd_lt _ _, x.rd_lt _ _, fun _ => x.rd_lt _ _⟩

theorem rd_putDinode_addr (x : Block) {k : ℕ} (hk : k < ipb) (d : Dinode) (a : Fin 13) :
    (putDinode x k d).rd (64 * k + 12 + 4 * a) 4 = d.addrs a % 256 ^ 4 := by
  have hk : k < 16 := hk
  have ha := a.isLt
  apply Bytes.rd_eq_of_bytes
  intro i hi
  rw [putDinode, Bytes.get_blit _ _ _ _ (by omega), if_pos (by omega),
    show 64 * k + 12 + 4 * a.val + i - (64 * k + 12) = 4 * a.val + i by omega,
    addrBytes_of_lt _ _ hi]

/-- An inode reads back. -/
theorem getDinode_putDinode (x : Block) {k : ℕ} (hk : k < ipb) {d : Dinode} (h : d.Fits) :
    getDinode (putDinode x k d) k = d := by
  have ha : (getDinode (putDinode x k d) k).addrs = d.addrs := by
    funext a
    exact (rd_putDinode_addr x hk d a).trans (Nat.mod_eq_of_lt (h.addrs a))
  have hk : k < 16 := hk
  obtain ⟨h₁, h₂, h₃, h₄, h₅, -⟩ := h
  cases d
  simp only [getDinode, Dinode.mk.injEq] at ha ⊢
  -- the fields before `addrs[]` are numbers at disjoint offsets
  refine ⟨?_, ?_, ?_, ?_, ?_, ha⟩ <;> rw [putDinode, Bytes.rd_blit_of_not_mem _ _ (by omega)] <;>
    simp (disch := omega) only [Bytes.rd_wr_of_disjoint, Bytes.rd_wr, Nat.mod_eq_of_lt, *]

theorem rd_putDinode_of_not_mem (x : Block) {k o w : ℕ} (d : Dinode)
    (h : o + w ≤ 64 * k ∨ 64 * k + 64 ≤ o) : (putDinode x k d).rd o w = x.rd o w := by
  rw [putDinode, Bytes.rd_blit_of_not_mem _ _ (by omega)]
  simp (disch := omega) only [Bytes.rd_wr_of_disjoint]

/-- The other inodes of the block stay. -/
theorem getDinode_putDinode_of_ne (x : Block) {k j : ℕ} (h : j ≠ k) (d : Dinode) :
    getDinode (putDinode x k d) j = getDinode x j := by
  have ha : (getDinode (putDinode x k d) j).addrs = (getDinode x j).addrs := by
    funext a
    have := a.isLt
    exact rd_putDinode_of_not_mem x d (by omega)
  simp only [getDinode, Dinode.mk.injEq] at ha ⊢
  refine ⟨?_, ?_, ?_, ?_, ?_, ha⟩ <;> exact rd_putDinode_of_not_mem x d (by omega)

/-! ## The free map -/

/-- Bit `bi` of a block of the free map. -/
def getBit (x : Block) (bi : ℕ) : Bool := (x.get (bi / 8)).toNat.testBit (bi % 8)

/-- `data[bi/8] |= 1 << (bi % 8)`. -/
def setBit (x : Block) (bi : ℕ) : Block :=
  x.set (bi / 8) (UInt8.ofNat ((x.get (bi / 8)).toNat ||| 2 ^ (bi % 8)))

/-- `data[bi/8] &= ~(1 << (bi % 8))`. -/
def clearBit (x : Block) (bi : ℕ) : Block :=
  x.set (bi / 8) (UInt8.ofNat ((x.get (bi / 8)).toNat &&& (255 - 2 ^ (bi % 8))))

theorem getBit_set (x : Block) {a b : ℕ} (hb : b < bpb) (v : UInt8) :
    getBit (x.set (a / 8) v) b =
      if b / 8 = a / 8 then v.toNat.testBit (b % 8) else getBit x b := by
  have hb : b < 8192 := hb
  unfold getBit
  by_cases h : b / 8 = a / 8
  · rw [if_pos h, ← h, Bytes.get_set_self _ _ (by omega)]
  · rw [if_neg h, Bytes.get_set_of_ne _ _ h]

theorem getBit_setBit (x : Block) {a b : ℕ} (hb : b < bpb) :
    getBit (setBit x a) b = (decide (b = a) || getBit x b) := by
  have hv : ((x.get (a / 8)).toNat ||| 2 ^ (a % 8)) < 2 ^ 8 :=
    Nat.or_lt_two_pow (x.get (a / 8)).toNat_lt (Nat.pow_lt_pow_right (by omega) (by omega))
  rw [setBit, getBit_set x hb, UInt8.toNat_ofNat', Nat.mod_eq_of_lt hv, Nat.testBit_or,
    Nat.testBit_two_pow]
  by_cases h : b / 8 = a / 8
  · have hab : b = a ↔ a % 8 = b % 8 := by omega
    simp [h, getBit, hab, Bool.or_comm]
  · have hab : b ≠ a := fun e => h (by rw [e])
    simp [h, hab]

theorem getBit_clearBit (x : Block) {a b : ℕ} (hb : b < bpb) :
    getBit (clearBit x a) b = (!decide (b = a) && getBit x b) := by
  have hv : ((x.get (a / 8)).toNat &&& (255 - 2 ^ (a % 8))) < 2 ^ 8 :=
    lt_of_le_of_lt Nat.and_le_left (x.get (a / 8)).toNat_lt
  have hbit : ∀ k < 8, ∀ j < 8, (255 - 2 ^ k).testBit j = !decide (k = j) := by decide
  rw [clearBit, getBit_set x hb, UInt8.toNat_ofNat', Nat.mod_eq_of_lt hv, Nat.testBit_and,
    hbit _ (Nat.mod_lt _ (by omega)) _ (Nat.mod_lt _ (by omega))]
  by_cases h : b / 8 = a / 8
  · have hab : b = a ↔ a % 8 = b % 8 := by omega
    simp [h, getBit, hab, Bool.and_comm]
  · have hab : b ≠ a := fun e => h (by rw [e])
    simp [h, hab]

/-! ## Directory entries -/

/-- A name field, `DIRSIZ` bytes. -/
abbrev Name := Bytes 14

/-- `struct dirent`. -/
structure Dirent where
  inum : ℕ
  name : Name

/-- `sizeof(struct dirent)`. -/
abbrev direntSize : ℕ := 16

/-- A directory entry from its bytes. -/
def Dirent.decode (f : ℕ → UInt8) : Dirent where
  inum := (f 0).toNat + 256 * (f 1).toNat
  name := fun j => f (2 + j)

theorem Dirent.decode_congr {f g : ℕ → UInt8} (h : ∀ j < direntSize, f j = g j) :
    decode f = decode g := by
  unfold decode
  rw [h 0 (by decide), h 1 (by decide)]
  congr 1
  funext j
  have hj := j.isLt
  exact h (2 + j) (by simp only [direntSize]; omega)

/-- The bytes of a directory entry. -/
def Dirent.encode (de : Dirent) (j : ℕ) : UInt8 :=
  if j = 0 then UInt8.ofNat (de.inum % 256)
  else if j = 1 then UInt8.ofNat (de.inum / 256 % 256)
  else de.name.get (j - 2)

/-- A directory entry reads back. -/
theorem Dirent.decode_encode {de : Dirent} (h : de.inum < 2 ^ 16) : decode de.encode = de := by
  obtain ⟨inum, name⟩ := de
  have h₀ : (Dirent.encode ⟨inum, name⟩ 0).toNat = inum % 256 := by simp [encode]
  have h₁ : (Dirent.encode ⟨inum, name⟩ 1).toNat = inum / 256 % 256 := by simp [encode]
  simp only at h
  unfold decode
  congr 1
  · rw [h₀, h₁]
    omega
  · funext j
    have hj : 2 + j.val - 2 = j := by omega
    rw [encode, if_neg (by omega), if_neg (by omega), hj, Bytes.get_of_lt _ j.isLt]

/-- `strncmp(s, t, n)` from offset `i` on. -/
def strncmp (s t : Name) : ℕ → ℕ → ℤ
  | _, 0 => 0
  | i, n + 1 =>
    if s.get i ≠ 0 ∧ s.get i = t.get i then strncmp s t (i + 1) n
    else (s.get i).toNat - (t.get i).toNat

/-- `namecmp`. -/
def namecmp (s t : Name) : ℤ := strncmp s t 0 dirsiz

/-- `strncpy(de.name, name, DIRSIZ)`: the name up to its end, then zeros. -/
def strncpy (name : Name) : Name := fun j =>
  if (List.range (j + 1)).any fun i => name.get i == 0 then 0 else name j

/-- A string as a name field. -/
def nameOf (l : List UInt8) : Name := fun j => l.getD j 0

end Xv6
