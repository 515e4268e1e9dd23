import Xv6.Mkfs.Image
import Xv6.Fs.ReadWrite

/-!
# Appending to files of an image

An image under construction is read as a volume, the one the kernel will see, whose free map says
which blocks `freeblock` has passed. In these terms `iappend` allocates blocks and writes bytes as
`writei` does, and the lemmas about volumes apply. Files grow at their ends only, so that each of
them has a block for an index exactly when the index is below its size (`Packed`).
-/

namespace Xv6

open Vol Fs

namespace Mkfs

theorem layout_sb : Layout sb := by
  constructor <;> decide

/-- Inode `i` has blocks exactly for its first `off` bytes, and zeros after them. -/
structure Packed (V : Vol) (i off : ℕ) : Prop where
  exact : ∀ k < maxfile, V.ref i (.ofIndex k) ≠ 0 ↔ k * bsize < off
  tail : ∀ o, off ≤ o → o / bsize < maxfile → V.ref i (.ofIndex (o / bsize)) ≠ 0 → V.byte i o = 0

/-- The inodes other than `i`, with their blocks, are the same. -/
structure Apart (V W : Vol) (i : ℕ) : Prop where
  ino : ∀ j, j ≠ i → W.ino j = V.ino j
  ref : ∀ j, j ≠ i → (V.ino j).type ≠ 0 → ∀ x, W.ref j x = V.ref j x
  blk : ∀ j, j ≠ i → (V.ino j).type ≠ 0 → ∀ x, V.ref j x ≠ 0 →
    W.blk (V.ref j x) = V.blk (V.ref j x)

namespace Apart

variable {V W X : Vol} {i j b off : ℕ}

theorem refl (V : Vol) (i : ℕ) : Apart V V i :=
  ⟨fun _ _ => rfl, fun _ _ _ _ => rfl, fun _ _ _ _ _ => rfl⟩

theorem trans (h₁ : Apart V W i) (h₂ : Apart W X i) : Apart V X i := by
  have ht : ∀ j, j ≠ i → (V.ino j).type ≠ 0 → (W.ino j).type ≠ 0 := fun j hj htj => by
    rw [h₁.ino j hj]
    exact htj
  refine ⟨fun j hj => (h₂.ino j hj).trans (h₁.ino j hj), fun j hj htj x => ?_, fun j hj htj x hx => ?_⟩
  · exact (h₂.ref j hj (ht j hj htj) x).trans (h₁.ref j hj htj x)
  · have h := h₂.blk j hj (ht j hj htj) x
    rw [h₁.ref j hj htj x] at h
    exact (h hx).trans (h₁.blk j hj htj x hx)

theorem setIno (V : Vol) (i : ℕ) (d : Dinode) : Apart V (V.setIno i d) i :=
  ⟨fun _ => setIno_ino_of_ne, fun _ hj _ _ => ref_setIno_of_ne hj, fun _ _ _ _ _ => rfl⟩

/-- A block that no other inode has gets new contents. -/
theorem setBlk (y : Block) (hb : ∀ j, j ≠ i → (V.ino j).type ≠ 0 → ∀ x, V.ref j x ≠ b) :
    Apart V (V.setBlk b y) i :=
  ⟨fun _ _ => rfl, fun j hj ht _ => ref_setBlk (hb j hj ht (.addr 12)),
    fun j hj ht x _ => setBlk_blk_of_ne (hb j hj ht x)⟩

/-- A free block is marked and zeroed. -/
theorem alloc (h : Owned sb V) (hb : IsData sb b) (hbit : V.bit b = false) :
    Apart V (V.alloc b) i := by
  have hset : Apart V (V.setBit b true) i :=
    ⟨fun _ _ => rfl, fun _ _ _ _ => ref_setBit, fun _ _ _ _ _ => rfl⟩
  refine hset.trans (.setBlk _ fun j _ ht x => ?_)
  rw [ref_setBit]
  exact h.ref_ne_of_fresh (fun hu => by simp [hu.2] at hbit) (layout_sb.ne_zero hb) ht

theorem byte (h : Apart V W i) (hj : j ≠ i) (ht : (V.ino j).type ≠ 0)
    (hx : V.ref j (.ofIndex (off / bsize)) ≠ 0) : W.byte j off = V.byte j off := by
  unfold Vol.byte
  rw [h.ref j hj ht, h.blk j hj ht _ hx]

end Apart

theorem Packed.of_apart {V W : Vol} {i j off : ℕ} (h : Packed V j off) (a : Apart V W i)
    (hj : j ≠ i) (ht : (V.ino j).type ≠ 0) : Packed W j off := by
  refine ⟨fun k hk => ?_, fun o ho hmax hr => ?_⟩
  · rw [a.ref j hj ht]
    exact h.exact k hk
  · rw [a.ref j hj ht] at hr
    rw [a.byte hj ht hr]
    exact h.tail o ho hmax hr

namespace Image

variable {s s' s'' : Image} {i b x fbn n k off : ℕ} {din din' d : Dinode} {p : ℕ → UInt8}

/-- The volume of an image under construction. -/
def vol (s : Image) : Vol where
  ino i := if i < ninodes then getDinode (s.blk (iblock i sb)) (i % ipb) else .zero
  bit b := decide (b < s.freeblock)
  blk b := if IsData sb b then s.blk b else .zero _
  loose _ := False

/-- Nothing has been written past `freeblock`, and the image has its full size and its
superblock. -/
structure Ready (s : Image) : Prop where
  size : s.size = fssize
  free : nmeta ≤ s.freeblock
  zero : ∀ b, s.freeblock ≤ b → s.blk b = .zero _
  super : s.blk 1 = superblock

/-! ## Sectors and inodes -/

theorem rsect_eq_some {y : Block} (hy : s.rsect b = some y) : b < s.size ∧ y = s.blk b := by
  unfold rsect at hy
  split at hy
  · exact ⟨‹_›, (Option.some.inj hy).symm⟩
  · cases hy

theorem Ready.rsect (h : Ready s) {y : Block} (hy : s.rsect b = some y) :
    b < fssize ∧ y = s.blk b := by
  rw [← h.size]
  exact rsect_eq_some hy

theorem Ready.rsect_of_lt (h : Ready s) (hb : b < fssize) : s.rsect b = some (s.blk b) := by
  rw [Image.rsect, h.size, if_pos hb]

theorem Ready.wsect (h : Ready s) (hb : b < s.freeblock) (hlt : b < fssize)
    (hinode : sb.inodestart ≤ b) (y : Block) : Ready (s.wsect b y) := by
  refine ⟨?_, h.free, fun c hc => ?_, ?_⟩
  · show max s.size (b + 1) = fssize
    rw [h.size]
    omega
  · show (if c = b then y else s.blk c) = _
    have hc : s.freeblock ≤ c := hc
    rw [if_neg (by omega)]
    exact h.zero c hc
  · have hb1 : ¬ 1 = b := by
      rintro rfl
      exact absurd hinode (by decide)
    exact (if_neg hb1).trans h.super

theorem inodestart_le (hb : IsData sb b) : sb.inodestart ≤ b := Nat.le_trans (by decide) hb.1

theorem vol_wsect (hb : IsData sb b) (y : Block) : (s.wsect b y).vol = s.vol.setBlk b y := by
  ext1 c
  · by_cases hc : c < ninodes
    · simp [vol, Image.wsect, Vol.setBlk, hc, layout_sb.iblock_ne hc hb]
    · simp [vol, Image.wsect, Vol.setBlk, hc]
  · rfl
  · by_cases hcb : c = b
    · subst hcb
      simp [vol, Image.wsect, Vol.setBlk, hb]
    · simp [vol, Image.wsect, Vol.setBlk, hcb]
  · simp [vol, Vol.setBlk]

theorem iblock_lt (hi : i < ninodes) : iblock i sb < nmeta :=
  layout_sb.iblock_lt_dataStart hi

theorem vol_winode (hi : i < ninodes) (hd : d.Fits) :
    (s.wsect (iblock i sb) (putDinode (s.blk (iblock i sb)) (i % ipb) d)).vol =
      s.vol.setIno i d := by
  ext1 c
  · by_cases hc : c = i
    · subst hc
      simp [vol, Image.wsect, Vol.setIno, hi, getDinode_putDinode _ (Nat.mod_lt _ _) hd]
    · by_cases hb : iblock c sb = iblock i sb
      · simp [vol, Image.wsect, Vol.setIno, hc, hb, getDinode_putDinode_of_ne _ (index_ne hb hc)]
      · simp [vol, Image.wsect, Vol.setIno, hc, hb]
  · rfl
  · by_cases hb : IsData sb c
    · simp [vol, Image.wsect, Vol.setIno, hb, (layout_sb.iblock_ne hi hb).symm]
    · simp [vol, Image.wsect, Vol.setIno, hb]
  · rfl

/-- `winode` replaces an inode and nothing else. -/
theorem Ready.winode (h : Ready s) (hi : i < ninodes) (hd : d.Fits)
    (hw : s.winode i d = some s') :
    Ready s' ∧ s'.vol = s.vol.setIno i d ∧ s'.freeinode = s.freeinode := by
  have hb : iblock i sb < nmeta := iblock_lt hi
  have hlt : iblock i sb < fssize := hb.trans (by decide)
  rw [Image.winode, h.rsect_of_lt hlt] at hw
  obtain rfl := Option.some.inj hw
  exact ⟨h.wsect (hb.trans_le h.free) hlt (Nat.le_add_left _ _) _, vol_winode hi hd, rfl⟩

theorem exists_winode (h : iblock i sb < s.size) :
    ∃ s', s.winode i d = some s' ∧ s'.freeblock = s.freeblock := by
  refine ⟨s.wsect (iblock i sb) (putDinode (s.blk (iblock i sb)) (i % ipb) d), ?_, rfl⟩
  rw [winode, rsect, if_pos h]
  rfl

theorem Ready.rinode (h : Ready s) (hi : i < ninodes) : s.rinode i = some (s.vol.ino i) := by
  rw [Image.rinode, h.rsect_of_lt ((iblock_lt hi).trans (by decide))]
  simp [vol, hi]

/-! ## Allocation -/

/-- The next block is handed out. -/
def bump (s : Image) : Image := { s with freeblock := s.freeblock + 1 }

theorem Ready.bump (h : Ready s) : Ready s.bump :=
  ⟨h.size, Nat.le_succ_of_le h.free, fun b hb => h.zero b (Nat.le_of_succ_le hb), h.super⟩

theorem Ready.isData (h : Ready s) (hlt : s.freeblock < fssize) : IsData sb s.freeblock :=
  ⟨h.free, hlt⟩

/-- The block is zero already, so that this is an allocation in the kernel's sense. -/
theorem Ready.vol_bump (h : Ready s) (hlt : s.freeblock < fssize) :
    s.bump.vol = s.vol.alloc s.freeblock := by
  ext1 c
  · rfl
  · by_cases hc : c = s.freeblock
    · simp [vol, Image.bump, Vol.setBit, hc]
    · have hbit : decide (c < s.freeblock + 1) = decide (c < s.freeblock) :=
        decide_eq_decide.2 (by omega)
      simp only [vol, Image.bump, Vol.alloc, Vol.setBit, Vol.setBlk, Function.update_of_ne hc]
      exact hbit
  · by_cases hc : c = s.freeblock
    · simp [vol, Image.bump, Vol.setBlk, hc, h.isData hlt, h.zero _ (Nat.le_refl _)]
    · simp [vol, Image.bump, Vol.setBlk, hc]
  · simp [vol, Vol.setBlk]

theorem vol_bit_freeblock : s.vol.bit s.freeblock = false := by
  simp [vol]

/-- The next block goes to an empty place in `addrs[]` of the inode at hand. -/
theorem Ready.addAddr (h : Ready s) (ok : VolOk sb (s.vol.setIno i din)) (ht : din.type ≠ 0)
    {k : Fin 13} (hk : din.addrs k = 0) (hlt : s.freeblock < fssize) :
    VolOk sb (s.bump.vol.setIno i (din.setAddr k s.freeblock)) ∧
      Grown (s.vol.setIno i din) (s.bump.vol.setIno i (din.setAddr k s.freeblock)) i ∧
      Apart (s.vol.setIno i din) (s.bump.vol.setIno i (din.setAddr k s.freeblock)) i ∧
      ∀ x, x ≠ .addr k → (s.bump.vol.setIno i (din.setAddr k s.freeblock)).ref i x =
        (s.vol.setIno i din).ref i x := by
  have hW : s.bump.vol.setIno i (din.setAddr k s.freeblock) =
      ((s.vol.setIno i din).alloc s.freeblock).setIno i
        (((s.vol.setIno i din).ino i).setAddr k s.freeblock) := by
    rw [h.vol_bump hlt, setIno_ino_self, alloc, alloc, setIno_setBit, setIno_setBlk, setIno_setIno]
  have hbit : (s.vol.setIno i din).bit s.freeblock = false := by
    simpa using vol_bit_freeblock
  rw [hW]
  obtain ⟨ok', g, hother⟩ :=
    ok.addAddr (i := i) layout_sb (by simpa using ht) (by simpa using hk) (h.isData hlt) hbit
  exact ⟨ok', g, (Apart.alloc ok.owned (h.isData hlt) hbit).trans (.setIno _ i _), hother⟩

/-- What finding the block of index `fbn` of inode `i` does. -/
structure Found (s : Image) (din : Dinode) (i fbn x : ℕ) (din' : Dinode) (s' : Image) : Prop where
  ready : Ready s'
  ok : VolOk sb (s'.vol.setIno i din')
  grown : Grown (s.vol.setIno i din) (s'.vol.setIno i din') i
  apart : Apart (s.vol.setIno i din) (s'.vol.setIno i din') i
  ref : (s'.vol.setIno i din').ref i (.ofIndex fbn) = x
  data : IsData sb x
  other : ∀ k < maxfile, k ≠ fbn →
    (s'.vol.setIno i din').ref i (.ofIndex k) = (s.vol.setIno i din).ref i (.ofIndex k)
  fresh : (s.vol.setIno i din).ref i (.ofIndex fbn) = 0 → s'.vol.blk x = .zero _

/-- A block that is there. -/
theorem Found.refl (h : Ready s) (ok : VolOk sb (s.vol.setIno i din)) (ht : din.type ≠ 0)
    (hx : (s.vol.setIno i din).ref i (.ofIndex fbn) = x) (hx0 : x ≠ 0) :
    Found s din i fbn x din s := by
  subst hx
  exact ⟨h, ok, .refl _ _, .refl _ _, rfl, (ok.owned.used_ref (by simpa using ht) hx0).1,
    fun _ _ _ => rfl, fun h0 => absurd h0 hx0⟩

/-- The entry of the indirect block, once there is one. -/
theorem found_leaf (h : Ready s) (ok : VolOk sb (s.vol.setIno i din)) (ht : din.type ≠ 0)
    (hd : ¬ fbn < ndirect) (hbn : fbn < maxfile) (h12 : din.addrs 12 ≠ 0) {indirect : Block}
    (hr : s.rsect (din.addrs 12) = some indirect)
    (hb : (if indirect.rd (4 * (fbn - ndirect)) 4 = 0 then
        (s.freeblock, din, s.bump.wsect (din.addrs 12)
          (indirect.wr (4 * (fbn - ndirect)) 4 s.freeblock))
      else (indirect.rd (4 * (fbn - ndirect)) 4, din, s)) = (x, din', s')) (hx : x < fssize) :
    Found s din i fbn x din' s' := by
  have hlt : fbn - ndirect < nindirect := by
    simp only [maxfile, ndirect, nindirect] at *
    omega
  have ht' : ((s.vol.setIno i din).ino i).type ≠ 0 := by simpa using ht
  have hc : ((s.vol.setIno i din).ino i).addrs 12 ≠ 0 := by simpa using h12
  have hdata : IsData sb (din.addrs 12) := by
    simpa [Vol.ref] using (ok.owned.used_ref (x := .addr 12) ht' hc).1
  obtain rfl : indirect = s.vol.blk (din.addrs 12) := by
    rw [(h.rsect hr).2]
    simp [vol, hdata]
  have hrd : (s.vol.blk (din.addrs 12)).rd (4 * (fbn - ndirect)) 4 =
      (s.vol.setIno i din).ref i (.ofIndex fbn) := by
    simpa using rd_indirect hd hlt hc
  rw [hrd] at hb
  by_cases h0 : (s.vol.setIno i din).ref i (.ofIndex fbn) = 0
  · rw [if_pos h0] at hb
    obtain ⟨rfl, rfl, rfl⟩ : s.freeblock = x ∧ din = din' ∧ _ = s' := by simpa using hb
    have hused : din.addrs 12 < s.freeblock := by
      simpa [Vol.ref, vol] using (ok.owned.used_ref (x := .addr 12) ht' hc).2
    have hl : (s.vol.setIno i din).ref i (.leaf ⟨fbn - ndirect, hlt⟩) = 0 := by
      rw [← ofIndex_of_le hd hlt]
      exact h0
    have hbit : (s.vol.setIno i din).bit s.freeblock = false := by
      simpa using vol_bit_freeblock
    obtain ⟨ok', g, hleaf, hother⟩ := ok.addLeaf layout_sb ht' hc hl (h.isData hx) hbit
    have hW : (s.bump.wsect (din.addrs 12) ((s.vol.blk (din.addrs 12)).wr (4 * (fbn - ndirect)) 4
        s.freeblock)).vol.setIno i din = ((s.vol.setIno i din).alloc s.freeblock).setBlk
          (((s.vol.setIno i din).ino i).addrs 12) (((s.vol.setIno i din).blk
            (((s.vol.setIno i din).ino i).addrs 12)).wr
              (4 * (⟨fbn - ndirect, hlt⟩ : Fin 256)) 4 s.freeblock) := by
      rw [vol_wsect hdata, h.vol_bump hx, setIno_ino_self, alloc, alloc, setIno_setBit,
        setIno_setBlk, setIno_setBlk, setIno_blk]
    have hapart : Apart (s.vol.setIno i din) (((s.vol.setIno i din).alloc s.freeblock).setBlk
        (((s.vol.setIno i din).ino i).addrs 12) (((s.vol.setIno i din).blk
          (((s.vol.setIno i din).ino i).addrs 12)).wr
            (4 * (⟨fbn - ndirect, hlt⟩ : Fin 256)) 4 s.freeblock)) i := by
      have a : Apart _ _ i := .alloc ok.owned (h.isData hx) hbit
      refine a.trans (.setBlk _ fun j hj htj x e => hj ?_)
      rw [a.ref j hj htj] at e
      exact (ok.owned.ref_inj (x := .addr 12) ht' htj hc e).1
    refine ⟨?_, ?_, ?_, ?_, ?_, h.isData hx, fun k hk hne => ?_, fun _ => ?_⟩
    · exact h.bump.wsect (Nat.lt_succ_of_lt hused) hdata.2 (inodestart_le hdata) _
    · rw [hW]
      exact ok'
    · rw [hW]
      exact g
    · rw [hW]
      exact hapart
    · rw [hW, ofIndex_of_le hd hlt]
      exact hleaf
    · rw [hW]
      refine hother _ fun e => hne (Slot.ofIndex_inj hk hbn ?_)
      rw [e, ofIndex_of_le hd hlt]
    · rw [vol_wsect hdata, h.vol_bump hx, setBlk_blk_of_ne hused.ne', alloc, setBlk_blk_self]
  · rw [if_neg h0] at hb
    obtain ⟨rfl, rfl, rfl⟩ : _ = x ∧ din = din' ∧ s = s' := by simpa using hb
    exact .refl h ok ht rfl h0

/-- The place of the indirect block is filled first, which moves no block of the file. -/
theorem Found.of_grown (f : Found s' din' i fbn x d s'')
    (g : Grown (s.vol.setIno i din) (s'.vol.setIno i din') i)
    (a : Apart (s.vol.setIno i din) (s'.vol.setIno i din') i)
    (hr : ∀ k, (s'.vol.setIno i din').ref i (.ofIndex k) =
      (s.vol.setIno i din).ref i (.ofIndex k)) : Found s din i fbn x d s'' :=
  ⟨f.ready, f.ok, g.trans f.grown, a.trans f.apart, f.ref, f.data, fun k hk hne => (f.other k hk hne).trans (hr k),
    fun h0 => f.fresh ((hr fbn).trans h0)⟩

theorem blockAt_found (h : Ready s) (ok : VolOk sb (s.vol.setIno i din)) (ht : din.type ≠ 0)
    (hbn : fbn < maxfile) (hb : s.blockAt din fbn = some (x, din', s')) (hx : x < fssize) :
    Found s din i fbn x din' s' := by
  unfold blockAt at hb
  by_cases hd : fbn < ndirect
  · rw [dif_pos hd] at hb
    have href : ∀ V : Vol, ∀ d, (V.setIno i d).ref i (.ofIndex fbn) =
        d.addrs ⟨fbn, lt_addrs hd⟩ := fun V d => by
      rw [ofIndex_of_lt hd, Vol.ref, setIno_ino_self]
    by_cases h0 : din.addrs ⟨fbn, lt_addrs hd⟩ = 0
    · rw [if_pos h0] at hb
      obtain ⟨rfl, rfl, rfl⟩ : s.freeblock = x ∧ _ = din' ∧ s.bump = s' := by
        simpa [Image.bump] using hb
      obtain ⟨ok', g, ha, hother⟩ := h.addAddr ok ht h0 hx
      refine ⟨h.bump, ok', g, ha, ?_, h.isData hx, fun k hk hne => hother _ fun e => hne ?_,
        fun _ => ?_⟩
      · rw [href, setAddr_addrs_self]
      · rw [← ofIndex_of_lt hd] at e
        exact Slot.ofIndex_inj hk hbn e
      · rw [h.vol_bump hx, alloc, setBlk_blk_self]
    · rw [if_neg h0] at hb
      obtain ⟨rfl, rfl, rfl⟩ : _ = x ∧ din = din' ∧ s = s' := by simpa using hb
      exact .refl h ok ht (href _ _) h0
  · rw [dif_neg hd] at hb
    by_cases h12 : din.addrs 12 = 0
    · rw [if_pos h12] at hb
      obtain ⟨indirect, hr, hb⟩ := Option.map_eq_some_iff.1 hb
      have hlt : s.freeblock < fssize := by simpa using (h.bump.rsect hr).1
      obtain ⟨ok', g, ha, hother⟩ := h.addAddr ok ht h12 hlt
      have h12' : (din.setAddr 12 s.freeblock).addrs 12 ≠ 0 := by
        rw [setAddr_addrs_self]
        exact layout_sb.ne_zero (h.isData hlt)
      exact (found_leaf h.bump ok' ht hd hbn h12' hr hb hx).of_grown g ha
        fun k => hother _ (Slot.ofIndex_ne k)
    · rw [if_neg h12] at hb
      obtain ⟨indirect, hr, hb⟩ := Option.map_eq_some_iff.1 hb
      exact found_leaf h ok ht hd hbn h12 hr hb hx

/-- The indirect block has been read, so that writing it leaves the size of the image. -/
theorem blockAt_frame (hb : s.blockAt din fbn = some (x, din', s')) :
    s'.size = s.size ∧ s'.freeinode = s.freeinode := by
  have hleaf : ∀ {t : Image} {a : ℕ} {y : Block}, t.rsect a = some y → ∀ z,
      (t.bump.wsect a z).size = t.size := fun {t a y} hr z => by
    have ha := (rsect_eq_some hr).1
    show max t.size (a + 1) = t.size
    omega
  unfold blockAt at hb
  by_cases hd : fbn < ndirect
  · rw [dif_pos hd] at hb
    dsimp only at hb
    split at hb
    all_goals
      obtain rfl := (Prod.mk.inj (Prod.mk.inj (Option.some.inj hb)).2).2
      exact ⟨rfl, rfl⟩
  · rw [dif_neg hd] at hb
    split at hb
    rename_i _ e t heq
    obtain ⟨h₁, h₂⟩ : t.size = s.size ∧ t.freeinode = s.freeinode := by
      split at heq
      all_goals
        obtain rfl := (Prod.mk.inj heq).2
        exact ⟨rfl, rfl⟩
    obtain ⟨indirect, hr, hb⟩ := Option.map_eq_some_iff.1 hb
    split at hb
    · obtain rfl := (Prod.mk.inj (Prod.mk.inj hb).2).2
      exact ⟨(hleaf hr _).trans h₁, h₂⟩
    · obtain rfl := (Prod.mk.inj (Prod.mk.inj hb).2).2
      exact ⟨h₁, h₂⟩

/-! ## The loop -/

/-- What appending `n` bytes of `p` to inode `i`, at `off`, does before the inode is written. -/
structure Appended (s : Image) (din : Dinode) (i off n : ℕ) (p : ℕ → UInt8) (din' : Dinode)
    (s' : Image) : Prop where
  ready : Ready s'
  ok : VolOk sb (s'.vol.setIno i din')
  wrote : Wrote (s.vol.setIno i din) (s'.vol.setIno i din') i off (off + n) fun o => p (o - off)
  apart : Apart (s.vol.setIno i din) (s'.vol.setIno i din') i
  packed : Packed (s'.vol.setIno i din') i (off + n)

theorem clear_vol : Clear (s.vol.setIno i din) i := fun _ _ => id

/-- One turn of the loop: the block is found and its bytes from `off` on are replaced. -/
theorem Found.write (f : Found s din i (off / bsize) x din' s') (ht : din.type ≠ 0)
    (hbn : off / bsize < maxfile) (pk : Packed (s.vol.setIno i din) i off) (hn : 0 < n)
    (hfit : off % bsize + n ≤ bsize) :
    Appended s din i off n p din' (s'.wsect x ((s'.blk x).blit (off % bsize) n p)) := by
  have ht' : ((s'.vol.setIno i din').ino i).type ≠ 0 := by
    rw [f.grown.type]
    simpa using ht
  have hx0 : (s'.vol.setIno i din').ref i (.ofIndex (off / bsize)) ≠ 0 := by
    rw [f.ref]
    exact layout_sb.ne_zero f.data
  have hX : (s'.wsect x ((s'.blk x).blit (off % bsize) n p)).vol.setIno i din' =
      (s'.vol.setIno i din').setBlk ((s'.vol.setIno i din').ref i (.ofIndex (off / bsize)))
        ((s'.blk x).blit (off % bsize) n p) := by
    rw [vol_wsect f.data, f.ref, setIno_setBlk]
  have hblk : s'.blk x = s'.vol.blk x := by simp [vol, f.data]
  have w := Wrote.write (f := fun o => p (o - off)) f.ok ht' hx0 hfit hbn
    (y := (s'.blk x).blit (off % bsize) n p) fun _ => by
      rw [f.ref, setIno_blk, hblk]
      simp
  have w' := (Wrote.of_grown off (fun o => p (o - off)) f.grown).trans w (Nat.le_refl _)
    (Nat.le_add_right _ _) fun _ _ => rfl
  have hused : x < s'.freeblock := by
    have := (f.ok.owned.used_ref ht' hx0).2
    rw [f.ref] at this
    simpa [vol] using this
  have href : ∀ k, ((s'.vol.setIno i din').setBlk
      ((s'.vol.setIno i din').ref i (.ofIndex (off / bsize)))
        ((s'.blk x).blit (off % bsize) n p)).ref i (.ofIndex k) =
      (s'.vol.setIno i din').ref i (.ofIndex k) := fun k =>
    ref_setBlk (f.ok.owned.addrs_ne_ref ht' hx0 ht')
  refine ⟨f.ready.wsect hused f.data.2 (inodestart_le f.data) _, ?_, ?_, ?_, ⟨fun k hk => ?_, fun o ho hmax hr => ?_⟩⟩
  · rw [hX]
    exact f.ok.setBlk ht' hx0 _
  · rw [hX]
    exact w'
  · rw [hX]
    exact f.apart.trans (.setBlk _ fun j hj htj x e => hj (f.ok.owned.ref_inj ht' htj hx0 e).1)
  · rw [hX, href]
    by_cases hkb : k = off / bsize
    · subst hkb
      simp only [bsize] at *
      exact ⟨fun _ => by omega, fun _ => hx0⟩
    · rw [f.other k hk hkb, pk.exact k hk]
      simp only [bsize] at *
      omega
  · rw [hX] at hr ⊢
    rw [href] at hr
    rw [w.byte clear_vol o hmax (.inl hr), if_neg (by omega)]
    by_cases hob : o / bsize = off / bsize
    · by_cases h0 : (s.vol.setIno i din).ref i (.ofIndex (off / bsize)) = 0
      · -- the block is new
        rw [Vol.byte, hob, f.ref, setIno_blk, f.fresh h0, Bytes.get_zero]
      · rw [f.grown.byte o (by rw [hob]; exact h0)]
        exact pk.tail o (by omega) hmax (by rw [hob]; exact h0)
    · rw [f.other _ hmax hob] at hr
      rw [f.grown.byte o hr]
      exact pk.tail o (by omega) hmax hr

theorem Appended.trans {m : ℕ} {q : ℕ → UInt8} (a : Appended s din i off n p din' s')
    (b : Appended s' din' i (off + n) m q d s'') (hq : ∀ j, q j = p (n + j)) :
    Appended s din i off (n + m) p d s'' := by
  obtain ⟨hr, ok, w, ha, pk⟩ := b
  rw [Nat.add_assoc] at w pk
  refine ⟨hr, ok, a.wrote.trans w (by omega) (by omega) fun o ho => ?_, a.apart.trans ha, pk⟩
  rw [hq]
  congr 1
  omega

/-- Nothing to append. -/
theorem Appended.refl (h : Ready s) (ok : VolOk sb (s.vol.setIno i din))
    (pk : Packed (s.vol.setIno i din) i off) : Appended s din i off 0 p din s :=
  ⟨h, ok, .of_grown off _ (.refl _ i), .refl _ i, pk⟩

theorem appendLoop_spec {off' : ℕ} (h : Ready s) (ok : VolOk sb (s.vol.setIno i din))
    (ht : din.type ≠ 0) (pk : Packed (s.vol.setIno i din) i off) (hk : n ≤ k)
    (hl : appendLoop k n p din off s = some (din', off', s')) :
    Appended s din i off n p din' s' ∧ off' = off + n ∧ (n ≠ 0 → off' ≤ maxfile * bsize) := by
  induction k generalizing n p din off s with
  | zero =>
    obtain rfl : n = 0 := by omega
    obtain ⟨rfl, rfl, rfl⟩ : din = din' ∧ off = off' ∧ s = s' := by simpa [appendLoop] using hl
    exact ⟨.refl h ok pk, rfl, fun h0 => absurd rfl h0⟩
  | succ k ih =>
    rw [appendLoop] at hl
    by_cases hn : n = 0
    · subst hn
      obtain ⟨rfl, rfl, rfl⟩ : din = din' ∧ off = off' ∧ s = s' := by simpa using hl
      exact ⟨.refl h ok pk, rfl, fun h0 => absurd rfl h0⟩
    · rw [if_neg hn] at hl
      by_cases hbn : off / bsize < maxfile
      · rw [if_pos hbn] at hl
        obtain ⟨⟨x, din₁, s₁⟩, hb, hl⟩ := Option.bind_eq_some_iff.1 hl
        obtain ⟨buf, hr, hl⟩ := Option.bind_eq_some_iff.1 hl
        have hx : x < fssize := by
          rw [← h.size, ← (blockAt_frame hb).1]
          exact (rsect_eq_some hr).1
        have f := blockAt_found h ok ht hbn hb hx
        obtain rfl := (f.ready.rsect hr).2
        have hmod : off - off / bsize * bsize = off % bsize := by simp only [bsize]; omega
        obtain ⟨n₁, hn₁⟩ : ∃ n₁, n₁ = min n ((off / bsize + 1) * bsize - off) := ⟨_, rfl⟩
        rw [hmod, ← hn₁] at hl
        simp only [bsize, maxfile] at hn₁ hbn ⊢
        have a := f.write (p := p) (n := n₁) ht hbn pk (by omega) (by simp only [bsize]; omega)
        have ht₁ : din₁.type ≠ 0 := by simpa using a.wrote.type.trans_ne (by simpa using ht)
        obtain ⟨b, rfl, hmax⟩ := ih a.ready a.ok ht₁ a.packed (by omega) hl
        have hsum : n₁ + (n - n₁) = n := by omega
        refine ⟨hsum ▸ a.trans b fun _ => rfl, by omega, fun _ => ?_⟩
        by_cases hlast : n - n₁ = 0
        · omega
        · exact hmax hlast
      · rw [if_neg hbn] at hl
        cases hl

end Image

end Mkfs

end Xv6
