import Xv6.Fs.Reach
import Xv6.Mkfs.WellFormed

/-!
# The image of `mkfs` as the kernel finds it

An image that `mkfs` builds is an image of a file system in the kernel's sense (`ImageOk`), when
there are inodes for all files and the entries of the root directory do not fill its last block.
-/

namespace Xv6

open Eff Vol Fs Own

namespace Mkfs

theorem getSuperblock_superblock : getSuperblock superblock = sb := by decide +kernel

namespace Finished

variable {s t : Image} {m i b : ℕ} {x : Slot}

theorem imageSb_eq (f : Finished s t m) : imageSb s.blk = sb := by
  rw [imageSb, f.super]
  exact getSuperblock_superblock

/-- The kernel sees the volume of the image; it reads the free map from its block. -/
theorem imageVol_eq (f : Finished s t m) :
    imageVol s.blk = { s.vol with bit := (imageVol s.blk).bit } := by
  ext1 b
  · simp only [imageVol, Xv6.vol, Image.vol, f.imageSb_eq]
    rfl
  · rfl
  · simp only [imageVol, Xv6.vol, Image.vol, f.imageSb_eq]
  · exact ⟨fun h => h.2 rfl, False.elim⟩

theorem imageVol_bit (f : Finished s t m) (hb : b < sb.size) :
    (imageVol s.blk).bit b = s.vol.bit b := by
  have hbit := f.bitmap b (hb.trans (by decide))
  simp only [imageVol, Xv6.vol, Image.vol, f.imageSb_eq, if_pos hb]
  exact hbit

theorem imageVol_ino (f : Finished s t m) : (imageVol s.blk).ino i = s.vol.ino i := by
  rw [f.imageVol_eq]

theorem imageVol_node (f : Finished s t m) : (imageVol s.blk).node i = s.vol.node i := by
  rw [f.imageVol_eq]
  rfl

theorem imageVol_ref (f : Finished s t m) : (imageVol s.blk).ref i x = t.vol.ref i x := by
  rw [← f.ref, f.imageVol_eq]
  rfl

theorem imageVol_not_loose : ¬ (imageVol s.blk).loose b := fun h => h.2 rfl

theorem imageVol_used (f : Finished s t m) :
    (imageVol s.blk).Used sb b ↔ t.vol.Used sb b := by
  refine and_congr_right fun hb => ?_
  rw [f.imageVol_bit hb.2, f.vol]
  rfl

theorem owned (f : Finished s t m) : Owned sb (imageVol s.blk) := by
  refine f.listed.sound.ok.owned.congr (fun ⟨i, x⟩ => ?_) fun b => f.imageVol_used
  refine holds_congr ?_ fun _ => f.imageVol_ref
  rw [f.imageVol_ino, f.type]

theorem volOk (f : Finished s t m) (hm : m ≤ ninodes) (hm64 : m % 64 ≠ 0) :
    VolOk sb (imageVol s.blk) := by
  have ok := f.listed.sound.ok
  refine ⟨f.owned, fun b hb => ?_, fun i ht => ?_, fun i _ =>
    ⟨fun _ => imageVol_not_loose, fun _ _ _ => imageVol_not_loose⟩⟩
  · rw [f.imageVol_bit (hb.trans (by decide)), f.vol]
    exact ok.marked b hb
  · rw [f.imageVol_ino, f.type] at ht
    by_cases hi : i = rootino
    · subst hi
      refine ⟨?_, fun k hk => ?_⟩
      · rw [f.imageVol_ino, f.ino_root]
        simp only [direntSize, bsize, maxfile, ninodes] at *
        omega
      · rw [f.imageVol_ino] at hk
        rw [f.imageVol_ref, ← f.ref]
        exact (f.root_blocks hm).2 hm64 k hk
    · refine ⟨?_, fun k hk => ?_⟩
      · rw [f.imageVol_ino, f.ino_of_ne hi]
        exact (ok.filled i ht).size
      · rw [f.imageVol_ino, f.ino_of_ne hi] at hk
        rw [f.imageVol_ref]
        exact (ok.filled i ht).block k hk

theorem entsOk (f : Finished s t m) (hm : m ≤ ninodes) (hm64 : m % 64 ≠ 0) (j : ℕ) :
    EntsOk sb ((imageVol s.blk).node j) := by
  rw [f.imageVol_node]
  by_cases hj : j = rootino
  · subst hj
    have ht : (s.vol.ino rootino).type ≠ 0 := by
      rw [f.type]
      exact f.listed.type_ne
    have hsize : (s.vol.node rootino).size = (s.vol.ino rootino).size := by rw [node_of_ne ht]
    refine ⟨fun _ => ?_, fun _ k hk => ?_⟩
    · rw [hsize, f.ino_root]
      simp only [direntSize, bsize]
      omega
    · rw [hsize] at hk
      by_cases h0 : ((s.vol.node rootino).ent k).inum = 0
      · rw [h0]
        decide
      · have hlt := (f.typed.1 (f.entries hm hm64
          (Nat.lt_of_lt_of_le (Nat.lt_add_of_pos_right (by decide)) hk) h0)).2
        rw [f.freeinode] at hlt
        exact hlt.trans_le hm
  · refine .of_type_ne fun hd => hj ?_
    rw [node_type, f.type, ← node_type] at hd
    exact (f.listed.dir j).1 hd

end Finished

/-- The kernel finds a file system on the image. -/
theorem imageOk_main {files : List HostFile} {s : Image} (h : main files = some s)
    (hn : files.length ≤ 198) (h64 : (2 + files.length) % 64 ≠ 0) : ImageOk s.blk := by
  have hm : 2 + files.length ≤ ninodes := by
    simp only [ninodes]
    omega
  obtain ⟨t, f⟩ := main_finished h hm
  have hsb := f.imageSb_eq
  refine ⟨?_, ?_, ?_, ?_, ?_⟩
  · rw [hsb]
    rfl
  · rw [hsb]
    exact layout_sb
  · rw [hsb]
    exact f.volOk hm h64
  · rw [hsb]
    exact f.entsOk hm h64
  · rw [f.imageVol_ino, f.type]
    exact f.listed.type_ne

/-- The image with no files but the root directory. -/
def emptyImage : ℕ → Block :=
  match main [] with
  | some s => s.blk
  | none => fun _ => .zero _

theorem exists_emptyImage : ∃ s, main [] = some s ∧ emptyImage = s.blk := by
  obtain ⟨s, h⟩ := exists_main [] (by decide) (by decide)
  have h : main [] = some s := h
  refine ⟨s, h, ?_⟩
  unfold emptyImage
  rw [h]

theorem imageOk_emptyImage : ImageOk emptyImage := by
  obtain ⟨s, h, he⟩ := exists_emptyImage
  rw [he]
  exact imageOk_main h (by decide) (by decide)

/-- The kernel boots from the image, and the first process forks. -/
theorem exists_reach_emptyImage : ∃ s, Reach emptyImage s := by
  obtain ⟨s, hr, -⟩ := exists_reach emptyImage [(0, .fork 1)]
    (fun s => ((s.mem.proc 1).cwd).isSome) (by decide +kernel)
  exact ⟨s, hr⟩

end Mkfs

end Xv6
