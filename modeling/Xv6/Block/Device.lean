import Xv6.Lib.Bytes
import Mathlib.Logic.Function.Basic
import Mathlib.Data.List.Basic

/-!
# The block device

The device of `virtio_disk.c` reads and writes 512-byte sectors, synchronously and one at a time;
a file-system block is two consecutive sectors. The sector number of a block is computed in 32
bits, so two block numbers name different sectors when both are below `2 ^ 31`
(`sectorNo_inj`), as they are on every device the 32-bit sector register can address.
-/

namespace Xv6

/-- The contents of a sector, `SECTOR_SIZE` bytes. -/
abbrev Sector := Bytes 512

/-- The contents of a block, `BSIZE` bytes. -/
abbrev Block := Bytes 1024

/-- The contents of the device, sector by sector. -/
abbrev Disk := ℕ → Sector

/-- `b->blockno * SECTORS_PER_BLOCK + s`, a `uint32`. -/
def sectorNo (b s : ℕ) : ℕ := (b * 2 + s) % 2 ^ 32

/-- The sector `s` of a block. -/
def half (x : Block) (s : ℕ) : Sector := x.slice (512 * s) 512

/-- The block made of two sectors. -/
def ofHalves (lo hi : Sector) : Block :=
  Bytes.ofFn 1024 fun i => if i < 512 then lo.get i else hi.get (i - 512)

/-- The contents of block `b`. -/
def blockAt (d : Disk) (b : ℕ) : Block := ofHalves (d (sectorNo b 0)) (d (sectorNo b 1))

/-- The device after a write of sector `s` of block `b`. -/
def writeSector (d : Disk) (b s : ℕ) (x : Sector) : Disk := Function.update d (sectorNo b s) x

theorem sectorNo_of_lt {b s : ℕ} (hb : b < 2 ^ 31) (hs : s < 2) : sectorNo b s = b * 2 + s := by
  unfold sectorNo
  exact Nat.mod_eq_of_lt (by omega)

theorem sectorNo_inj {b b' s s' : ℕ} (hb : b < 2 ^ 31) (hb' : b' < 2 ^ 31) (hs : s < 2)
    (hs' : s' < 2) (h : sectorNo b s = sectorNo b' s') : b = b' ∧ s = s' := by
  rw [sectorNo_of_lt hb hs, sectorNo_of_lt hb' hs'] at h
  omega

theorem half_ofHalves_zero (lo hi : Sector) : half (ofHalves lo hi) 0 = lo := by
  refine Bytes.ext fun i hi' => ?_
  rw [half, Bytes.get_slice _ _ hi', ofHalves, Bytes.get_ofFn _ (by omega), if_pos (by omega)]
  simp

theorem half_ofHalves_one (lo hi : Sector) : half (ofHalves lo hi) 1 = hi := by
  refine Bytes.ext fun i hi' => ?_
  rw [half, Bytes.get_slice _ _ hi', ofHalves, Bytes.get_ofFn _ (by omega), if_neg (by omega)]
  simp

/-- A block is its two sectors. -/
theorem ofHalves_half (x : Block) : ofHalves (half x 0) (half x 1) = x := by
  refine Bytes.ext fun i hi => ?_
  rw [ofHalves, Bytes.get_ofFn _ hi]
  by_cases h : i < 512
  · rw [if_pos h, half, Bytes.get_slice _ _ h]
    simp
  · rw [if_neg h, half, Bytes.get_slice _ _ (by omega), show 512 * 1 + (i - 512) = i by omega]

theorem block_ext {x y : Block} (h₀ : half x 0 = half y 0) (h₁ : half x 1 = half y 1) : x = y := by
  rw [← ofHalves_half x, ← ofHalves_half y, h₀, h₁]

/-- The first sector holds the first half of the bytes. -/
theorem get_half_zero (x : Block) {i : ℕ} (h : i < 512) : (half x 0).get i = x.get i := by
  rw [half, Bytes.get_slice _ _ h]
  simp

theorem half_blockAt (d : Disk) (b : ℕ) {s : ℕ} (hs : s < 2) :
    half (blockAt d b) s = d (sectorNo b s) := by
  obtain rfl | rfl : s = 0 ∨ s = 1 := by omega
  · exact half_ofHalves_zero _ _
  · exact half_ofHalves_one _ _

section Write

variable {d : Disk} {b b' s s' : ℕ} {x : Sector}

/-- What a sector write does to the sectors of the blocks. -/
theorem half_blockAt_writeSector (hb : b < 2 ^ 31) (hb' : b' < 2 ^ 31) (hs : s < 2)
    (hs' : s' < 2) : half (blockAt (writeSector d b s x) b') s' =
      if b' = b ∧ s' = s then x else half (blockAt d b') s' := by
  rw [half_blockAt _ _ hs', half_blockAt _ _ hs', writeSector, Function.update_apply]
  by_cases h : b' = b ∧ s' = s
  · rw [if_pos h, if_pos (by rw [h.1, h.2])]
  · rw [if_neg h, if_neg fun he => h (sectorNo_inj hb' hb hs' hs he)]

theorem blockAt_writeSector_of_ne (hb : b < 2 ^ 31) (hb' : b' < 2 ^ 31) (hs : s < 2)
    (hne : b' ≠ b) : blockAt (writeSector d b s x) b' = blockAt d b' := by
  refine block_ext ?_ ?_ <;>
    rw [half_blockAt_writeSector hb hb' hs (by omega), if_neg fun h => hne h.1]

/-- Writing both sectors of a block writes the block. -/
theorem blockAt_writeSector_both (hb : b < 2 ^ 31) (y : Block) :
    blockAt (writeSector (writeSector d b 0 (half y 0)) b 1 (half y 1)) b = y := by
  refine block_ext ?_ ?_
  · rw [half_blockAt_writeSector hb hb (by omega) (by omega), if_neg (by omega),
      half_blockAt_writeSector hb hb (by omega) (by omega), if_pos ⟨rfl, rfl⟩]
  · rw [half_blockAt_writeSector hb hb (by omega) (by omega), if_pos ⟨rfl, rfl⟩]

end Write

end Xv6
