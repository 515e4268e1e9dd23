import Xv6.Fs.Content

/-!
# An inode in use

While `bmap`, `writei` and `itrunc` work on an inode, its copy in memory is ahead of the disk.
`Views s m ip V` says that `V` is the volume as seen through the copy of the inode in slot `ip`:
the disk with that inode replaced by its copy. `m` are the tables but for this copy. The rules
for `bmap` say that it adds blocks to the inode and changes no file.
-/

namespace Xv6

open Conc Eff Vol

/-- The tables with the copy of a disk inode replaced. -/
def Mem.setD (m : Mem) (ip : InodeId) (d : Dinode) : Mem :=
  m.setInode ip { m.itable ip with d := d }

namespace Mem

variable {m : Mem} {ip jp : InodeId} {d e : Dinode} {v w : Inode}

@[simp] theorem setInode_itable_self : (m.setInode ip v).itable ip = v := if_pos rfl

theorem setInode_itable_of_ne (h : jp ≠ ip) : (m.setInode ip v).itable jp = m.itable jp := if_neg h

@[simp] theorem setInode_sb : (m.setInode ip v).sb = m.sb := rfl

@[simp] theorem setInode_setInode : (m.setInode ip v).setInode ip w = m.setInode ip w := by
  simp only [setInode]
  congr 1
  funext i
  by_cases h : i = ip <;> simp [h]

@[simp] theorem setD_sb : (m.setD ip d).sb = m.sb := rfl

@[simp] theorem setD_itable_self : (m.setD ip d).itable ip = { m.itable ip with d := d } :=
  setInode_itable_self

theorem setD_itable_of_ne (h : jp ≠ ip) : (m.setD ip d).itable jp = m.itable jp :=
  setInode_itable_of_ne h

theorem setD_self (h : (m.itable ip).d = d) : m.setD ip d = m := by
  subst h
  simp only [setD, setInode]
  congr 1
  funext i
  by_cases h : i = ip <;> simp [h]

end Mem

/-- The volume as seen through the copy of an inode. -/
def Views (s : FsSt) (m : Mem) (ip : InodeId) (V : Vol) : Prop :=
  ∃ U, Shows s (m.setD ip (V.ino (m.itable ip).inum)) U ∧
    U.setIno (m.itable ip).inum (V.ino (m.itable ip).inum) = V

namespace Views

variable {s : FsSt} {m : Mem} {V : Vol} {ip : InodeId}

theorem of_shows (h : Shows s m V) (hd : (m.itable ip).d = V.ino (m.itable ip).inum) :
    Views s m ip V := by
  refine ⟨V, ?_, setIno_eq_self rfl⟩
  rw [Mem.setD_self hd]
  exact h

theorem layout (h : Views s m ip V) : Layout m.sb := by
  obtain ⟨U, h, -⟩ := h
  exact h.layout

/-- What `bread` returns for a block without unlogged stores. -/
theorem read_eq {b : ℕ} {x : Block} (h : Views s m ip V) (hb : IsData m.sb b) (hl : ¬ V.loose b)
    (hx : x = s.cached b ∨ x = s.logged b) : x = V.blk b := by
  obtain ⟨U, hs, hU⟩ := h
  have hloose : ¬ U.loose b := by
    rw [show U.loose = V.loose by rw [← hU, setIno_loose]]
    exact hl
  rw [show V.blk = U.blk by rw [← hU, setIno_blk], ← hs.blk_eq hb]
  rcases hx with rfl | rfl
  · exact hs.cached_eq hb hloose
  · rfl

end Views

namespace Fs

variable {t : Tid} {err : String → Prop} {s : FsSt} {m : Mem} {V : Vol} {ip : InodeId} {b : ℕ}

/-! ## The interface -/

theorem dinode_views {Q : Dinode → FsSt → Prop} (h : Views s m ip V)
    (hQ : Q (V.ino (m.itable ip).inum) s) : wp (store t) err (dinode ip) Q s := by
  obtain ⟨U, h, -⟩ := h
  refine dinode_wp h ?_
  simpa using hQ

theorem setDinode_views {f : Dinode → Dinode} {Q : Unit → FsSt → Prop} (h : Views s m ip V)
    (hQ : ∀ s', Views s' m ip (V.setIno (m.itable ip).inum (f (V.ino (m.itable ip).inum))) →
      Logs m.sb s s' ∅ ∅ ∅ → Q () s') : wp (store t) err (setDinode ip f) Q s := by
  obtain ⟨U, h, hU⟩ := h
  refine setDinode_wp h fun s' h' hlog => hQ s' ⟨U, ?_, ?_⟩ hlog
  · simpa [Mem.setD] using h'
  · rw [← hU]
    simp

theorem balloc_views {Q : ℕ → FsSt → Prop} (h : Views s m ip V) (hop : 0 < s.outstanding)
    (hmeta : ∀ b < dataStart m.sb, V.bit b = true) (hnone : V.Full m.sb → Q 0 s)
    (hsome : ∀ a s', IsData m.sb a → V.bit a = false →
      Views s' m ip (V.alloc a) → Logs m.sb s s' {a} {a} ∅ → Q a s') :
    wp (store t) err balloc Q s := by
  obtain ⟨U, h, hU⟩ := h
  have hbit : U.bit = V.bit := by rw [← hU, setIno_bit]
  refine balloc_wp h hop (by rw [hbit]; exact hmeta)
    (fun hfull => hnone (by unfold Full at *; rwa [hbit] at hfull)) fun a s' ha hb h' hlog => ?_
  refine hsome a s' ha (by rw [← hbit]; exact hb) ⟨_, h', ?_⟩ hlog
  rw [← setIno_setBlk, ← setIno_setBit]
  simp only [setBlk_ino, setBit_ino, hU]

theorem bfree_views {Q : Unit → FsSt → Prop} (h : Views s m ip V) (hop : 0 < s.outstanding)
    (hb : IsData m.sb b) (hbit : V.bit b = true)
    (hQ : ∀ s', Views s' m ip (V.setBit b false) → Logs m.sb s s' ∅ {b} ∅ → Q () s') :
    wp (store t) err (bfree b) Q s := by
  obtain ⟨U, h, hU⟩ := h
  have hbit' : U.bit = V.bit := by rw [← hU, setIno_bit]
  refine bfree_wp h hop hb (by rw [hbit']; exact hbit) fun s' h' hlog => hQ s' ⟨_, h', ?_⟩ hlog
  rw [← setIno_setBit, setBit_ino, hU]

theorem bread_views {Q : Block → FsSt → Prop} (h : Views s m ip V) (hb : IsData m.sb b)
    (hl : ¬ V.loose b) (hQ : Q (V.blk b) s) : wp (store t) err (bread b) Q s := by
  refine bread_wp fun x hx => ?_
  rw [h.read_eq hb hl hx]
  exact hQ

theorem logWrite_views {x : Block} {Q : Unit → FsSt → Prop} (h : Views s m ip V)
    (hop : 0 < s.outstanding) (hb : IsData m.sb b)
    (hQ : ∀ s', Views s' m ip (V.setBlk b x) → Logs m.sb s s' {b} ∅ ∅ → Q () s') :
    wp (store t) err (logWrite b x) Q s := by
  obtain ⟨U, h, hU⟩ := h
  refine logWrite_wp_data h hop hb fun s' h' hlog => hQ s' ⟨_, h', ?_⟩ hlog
  rw [← setIno_setBlk, setBlk_ino, hU]

theorem scribble_views {x : Block} {Q : Unit → FsSt → Prop} (h : Views s m ip V)
    (hb : IsData m.sb b) (hQ : ∀ s', Views s' m ip (V.setLoose b (x ≠ V.blk b)) →
      Logs m.sb s s' ∅ ∅ ∅ → Q () s') : wp (store t) err (scribble b x) Q s := by
  obtain ⟨U, h, hU⟩ := h
  have hblk : U.blk = V.blk := by rw [← hU, setIno_blk]
  refine scribble_wp_data h hb fun s' h' hlog => hQ s' ⟨_, h', ?_⟩ hlog
  rw [hblk, ← setIno_setLoose, setLoose_ino, hU]

theorem iupdate_views {Q : Unit → FsSt → Prop} (h : Views s m ip V) (hop : 0 < s.outstanding)
    (hi : (m.itable ip).inum < m.sb.ninodes) (hd : (V.ino (m.itable ip).inum).Fits)
    (hQ : ∀ s', Shows s' (m.setD ip (V.ino (m.itable ip).inum)) V →
      Logs m.sb s s' ∅ ∅ {(m.itable ip).inum} → Q () s') :
    wp (store t) err (iupdate ip) Q s := by
  obtain ⟨U, h, hU⟩ := h
  refine iupdate_wp h hop (by simpa using hi) (by simpa using hd) fun s' h' hlog => ?_
  simp only [Mem.setD_itable_self, Mem.setD_sb] at h' hlog
  rw [hU] at h'
  exact hQ s' h' hlog

/-! ## `bmap` -/

section Bmap

variable {i bn : ℕ}

/-- The set of a block; `0` is no block. -/
def only (b : ℕ) : Finset ℕ := if b = 0 then ∅ else {b}

theorem only_subset {A : Finset ℕ} (h : b ≠ 0 → b ∈ A) : only b ⊆ A := by
  unfold only
  split
  · exact Finset.empty_subset _
  · exact Finset.singleton_subset_iff.2 (h ‹_›)

theorem singleton_subset_only (h : b ≠ 0) : {b} ⊆ only b := by
  rw [only, if_neg h]

theorem mem_only {c : ℕ} (h : c ∈ only b) : c = b ∧ b ≠ 0 := by
  unfold only at h
  split at h
  · exact absurd h (Finset.notMem_empty _)
  · exact ⟨Finset.mem_singleton.1 h, ‹_›⟩

theorem card_only_le : (only b).card ≤ 1 := by
  unfold only
  split <;> simp

/-- The address of a block that is there. -/
theorem slotAddr_present {k : Fin 13} {Q : ℕ → FsSt → Prop} (hi : (m.itable ip).inum = i)
    (h : Views s m ip V) (hk : (V.ino i).addrs k ≠ 0) (hQ : Q ((V.ino i).addrs k) s) :
    wp (store t) err (slotAddr ip k) Q s := by
  subst hi
  refine wp_bind (dinode_views h ?_)
  rw [if_neg hk]
  exact wp_pure hQ

theorem slotAddr_wp {k : Fin 13} {Q : ℕ → FsSt → Prop} (hi : (m.itable ip).inum = i)
    (h : Views s m ip V) (hop : 0 < s.outstanding) (ok : VolOk m.sb V) (ht : (V.ino i).type ≠ 0)
    (hQ : ∀ s' W r, Views s' m ip W → VolOk m.sb W → Grown V W i →
      (r ≠ 0 → (W.ino i).addrs k = r) → (r = 0 → W.Full m.sb ∧ (V.ino i).addrs k = 0) → (∀ l, l ≠ k → (W.ino i).addrs l = (V.ino i).addrs l) →
      Logs m.sb s s' (only r) (if (V.ino i).addrs k = 0 then only r else ∅) ∅ → Q r s') :
    wp (store t) err (slotAddr ip k) Q s := by
  by_cases hk : (V.ino i).addrs k = 0
  · subst hi
    simp only [if_pos hk] at hQ
    refine wp_bind (dinode_views h ?_)
    rw [if_pos hk]
    refine wp_bind (balloc_views h hop ok.marked (fun hfull => ?_) fun a s' ha hbit h' hlog => ?_)
    · exact wp_pure (hQ s V 0 h ok (.refl V _) (fun h0 => absurd rfl h0) (fun _ => ⟨hfull, hk⟩)
        (fun _ _ => rfl) (.refl _ s))
    · have ha0 : a ≠ 0 := h.layout.ne_zero ha
      obtain ⟨ok', g, -⟩ := ok.addAddr h.layout ht hk ha hbit
      rw [if_neg ha0]
      refine wp_bind (setDinode_views h' fun s'' h'' hlog' => ?_)
      refine wp_pure (hQ s'' _ a h'' ok' g (fun _ => by simp) (fun h0 => absurd h0 ha0)
        (fun l hl => ?_) ?_)
      · rw [setIno_ino_self, setAddr_addrs_of_ne hl]
        rfl
      · rw [only, if_neg ha0]
        exact hlog.trans_right hlog'
  · refine slotAddr_present hi h hk (hQ s V _ h ok (.refl V i) (fun _ => rfl)
      (fun h0 => absurd h0 hk) (fun _ _ => rfl) ?_)
    rw [if_neg hk]
    exact (Logs.refl _ s).mono (Finset.empty_subset _) (Finset.Subset.refl _) (Finset.Subset.refl _)
      fun b hb => absurd hb (Finset.notMem_empty b)

theorem ofIndex_of_lt (h : bn < ndirect) :
    Slot.ofIndex bn = .addr ⟨bn, lt_addrs h⟩ := dif_pos h

theorem ofIndex_of_le (h : ¬ bn < ndirect) (hlt : bn - ndirect < nindirect) :
    Slot.ofIndex bn = .leaf ⟨bn - ndirect, hlt⟩ := by
  rw [Slot.ofIndex, dif_neg h]
  congr 1
  exact Fin.ext (Nat.mod_eq_of_lt hlt)

/-- The entry of the indirect block for block `bn`. -/
theorem rd_indirect (h : ¬ bn < ndirect) (hlt : bn - ndirect < nindirect)
    (h12 : (V.ino i).addrs 12 ≠ 0) :
    (V.blk ((V.ino i).addrs 12)).rd (4 * (bn - ndirect)) 4 = V.ref i (.ofIndex bn) := by
  rw [ofIndex_of_le h hlt, ref, if_neg h12]

/-- `bmap` of a block that is there changes nothing. -/
theorem bmap_present {Q : ℕ → FsSt → Prop} (hi : (m.itable ip).inum = i)
    (h : Views s m ip V) (ok : VolOk m.sb V) (ht : (V.ino i).type ≠ 0) (hbn : bn < maxfile)
    (hx : V.ref i (.ofIndex bn) ≠ 0) (hQ : Q (V.ref i (.ofIndex bn)) s) :
    wp (store t) err (bmap ip bn) Q s := by
  unfold bmap
  by_cases hd : bn < ndirect
  · rw [dif_pos hd]
    rw [ofIndex_of_lt hd] at hx hQ
    exact slotAddr_present hi h hx hQ
  · have hlt : bn - ndirect < nindirect := by
      simp only [maxfile, ndirect, nindirect] at *
      omega
    have h12 : (V.ino i).addrs 12 ≠ 0 := fun h0 => hx (by
      rw [ofIndex_of_le hd hlt, ref_leaf_of_zero h0])
    have hdata : IsData m.sb ((V.ino i).addrs 12) := (ok.owned.used_ref (x := .addr 12) ht h12).1
    rw [dif_neg hd, if_pos hlt]
    refine wp_bind (slotAddr_present hi h h12 ?_)
    rw [if_neg h12]
    refine wp_bind (bread_views h hdata ((ok.firm i ht).indirect h12) ?_)
    rw [rd_indirect hd hlt h12, if_neg hx]
    exact wp_bind (brelse_wp (wp_pure hQ))

/-- What `bmap` logs: the block it adds, the indirect block, and the bits of those that are new. -/
def BmapLogs (sb : Superblock) (s s' : FsSt) (V W : Vol) (i bn r : ℕ) : Prop :=
  Logs sb s s' (only r ∪ only ((W.ino i).addrs 12))
    ((if V.ref i (.ofIndex bn) = 0 then only r else ∅) ∪
      (if (V.ino i).addrs 12 = 0 then only ((W.ino i).addrs 12) else ∅)) ∅

/-- The bits are those of blocks of the inode. -/
theorem BmapLogs.of_logs {s' : FsSt} {W : Vol} {r : ℕ} {D B : Finset ℕ} (hl : Logs m.sb s s' D B ∅)
    (ok : VolOk m.sb W) (ht : (W.ino i).type ≠ 0) (hr : r ≠ 0 → W.ref i (.ofIndex bn) = r)
    (hD : D ⊆ only r ∪ only ((W.ino i).addrs 12))
    (hB : B ⊆ (if V.ref i (.ofIndex bn) = 0 then only r else ∅) ∪
      (if (V.ino i).addrs 12 = 0 then only ((W.ino i).addrs 12) else ∅)) :
    BmapLogs m.sb s s' V W i bn r := by
  refine hl.mono hD hB (Finset.Subset.refl _) fun b hb => ?_
  rcases Finset.mem_union.1 hb with hb | hb
  · split at hb
    · obtain ⟨rfl, h0⟩ := mem_only hb
      have hx := hr h0
      have hlt := (ok.owned.used_ref (x := .ofIndex bn) ht (by rw [hx]; exact h0)).1.2
      rwa [hx] at hlt
    · exact absurd hb (Finset.notMem_empty _)
  · split at hb
    · obtain ⟨rfl, h0⟩ := mem_only hb
      exact (ok.owned.used_ref (x := .addr 12) ht h0).1.2
    · exact absurd hb (Finset.notMem_empty _)

/-- `bmap` gives the address of a block of the inode, adding blocks as needed, or `0`. -/
theorem bmap_wp {Q : ℕ → FsSt → Prop} (hi : (m.itable ip).inum = i)
    (h : Views s m ip V) (hop : 0 < s.outstanding) (ok : VolOk m.sb V) (ht : (V.ino i).type ≠ 0)
    (hbn : bn < maxfile)
    (hQ : ∀ s' W r, Views s' m ip W → VolOk m.sb W → Grown V W i →
      (r ≠ 0 → W.ref i (.ofIndex bn) = r) →
      (r = 0 → W.Full m.sb ∧ V.ref i (.ofIndex bn) = 0) → BmapLogs m.sb s s' V W i bn r → Q r s') :
    wp (store t) err (bmap ip bn) Q s := by
  unfold bmap
  by_cases hd : bn < ndirect
  · rw [dif_pos hd]
    have href : ∀ X : Vol, X.ref i (.ofIndex bn) = (X.ino i).addrs ⟨bn, lt_addrs hd⟩ :=
      fun X => by rw [ofIndex_of_lt hd, ref]
    refine slotAddr_wp hi h hop ok ht fun s' W r h' ok' g hr hfull _ hlog => ?_
    have hrW : r ≠ 0 → W.ref i (.ofIndex bn) = r := fun h0 => (href W).trans (hr h0)
    refine hQ s' W r h' ok' g hrW (by rw [href]; exact hfull)
      (.of_logs hlog ok' (by rw [g.type]; exact ht) hrW Finset.subset_union_left ?_)
    rw [href]
    exact Finset.subset_union_left
  · have hlt : bn - ndirect < nindirect := by
      simp only [maxfile, ndirect, nindirect] at *
      omega
    rw [dif_neg hd, if_pos hlt]
    refine wp_bind (slotAddr_wp hi h hop ok ht fun s' W r h' ok' g hr hfull _ hlog => ?_)
    have ht' : (W.ino i).type ≠ 0 := by rw [g.type]; exact ht
    by_cases hr0 : r = 0
    · rw [if_pos hr0]
      obtain ⟨hfull, h12⟩ := hfull hr0
      refine wp_pure (hQ s' W 0 h' ok' g (fun h0 => absurd rfl h0) (fun _ => ⟨hfull, ?_⟩)
        (.of_logs hlog ok' ht' (fun h0 => absurd rfl h0) ?_ ?_))
      · rw [ofIndex_of_le hd hlt]
        exact ref_leaf_of_zero h12
      · rw [hr0]
        exact Finset.subset_union_left
      · rw [hr0]
        split <;> simp [only]
    · obtain rfl := hr hr0
      have hdata : IsData m.sb ((W.ino i).addrs 12) :=
        (ok'.owned.used_ref (x := .addr 12) ht' hr0).1
      rw [if_neg hr0]
      refine wp_bind (bread_views h' hdata ((ok'.firm i ht').indirect hr0) ?_)
      rw [rd_indirect hd hlt hr0]
      by_cases hx : W.ref i (.ofIndex bn) = 0
      · have hxV : V.ref i (.ofIndex bn) = 0 := by
          by_contra hne
          exact hne ((g.ref _ hne).symm.trans hx)
        rw [if_pos hx]
        refine wp_bind (balloc_views h' (hlog.still hop) ok'.marked (fun hfull => ?_)
          fun a s'' ha hbit h'' hlog' => ?_)
        · rw [if_neg (by simp)]
          exact wp_bind (brelse_wp (wp_pure (hQ s' W 0 h' ok' g (fun h0 => absurd rfl h0)
            (fun _ => ⟨hfull, hxV⟩) (.of_logs hlog ok' ht' (fun h0 => absurd rfl h0) Finset.subset_union_right
              Finset.subset_union_right))))
        · have ha0 : a ≠ 0 := h.layout.ne_zero ha
          rw [ofIndex_of_le hd hlt] at hx
          obtain ⟨ok'', g', hleaf, -⟩ := ok'.addLeaf h.layout ht' hr0 hx ha hbit
          rw [if_pos ha0]
          refine wp_bind (logWrite_views h'' (hlog'.still (hlog.still hop)) hdata
            fun s₃ h₃ hlog₃ => ?_)
          have hra : a ≠ 0 → Vol.ref _ i (.ofIndex bn) = a := fun _ => by
            rw [ofIndex_of_le hd hlt]
            exact hleaf
          refine wp_bind (brelse_wp (wp_pure (hQ s₃ _ a h₃ ok'' (g.trans g') hra
            (fun h0 => absurd h0 ha0) (.of_logs ((hlog.trans hlog').trans hlog₃) ok''
              (by rw [(g.trans g').type]; exact ht) hra ?_ ?_))))
          · refine Finset.union_subset (Finset.union_subset Finset.subset_union_right ?_) ?_
            · exact (singleton_subset_only ha0).trans Finset.subset_union_left
            · exact (singleton_subset_only hr0).trans Finset.subset_union_right
          · rw [if_pos hxV, Finset.union_empty]
            exact Finset.union_subset Finset.subset_union_right
              ((singleton_subset_only ha0).trans Finset.subset_union_left)
      · rw [if_neg hx]
        refine wp_bind (brelse_wp (wp_pure (hQ s' W _ h' ok' g (fun _ => rfl)
          (fun h0 => absurd h0 hx) (.of_logs hlog ok' ht' (fun _ => rfl) Finset.subset_union_right
            Finset.subset_union_right))))

end Bmap

end Fs

end Xv6
