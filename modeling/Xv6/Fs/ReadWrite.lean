import Xv6.Fs.Access

/-!
# Reading, writing and truncating a file

`readi` returns the bytes of a file and changes nothing; `writei` replaces the bytes that it
reports as written and no others; `itrunc` leaves an empty file and frees its blocks.
-/

namespace Xv6.Fs

open Conc Eff Vol

variable {t : Tid} {err : String → Prop} {s : FsSt} {m : Mem} {V : Vol} {ip : InodeId} {i : ℕ}

/-! ## `readi` -/

/-- The first `n` bytes of a destination can be written. -/
def Dst.Writable (dst : Dst) (n : ℕ) : Prop :=
  ∀ i len, i + len ≤ n → eitherCopyout dst i len = true

theorem Dst.writable_kernel (n : ℕ) : Dst.kernel.Writable n := fun _ _ _ => rfl

/-- The bytes of a block are bytes of the file. -/
theorem blockBytes (V : Vol) (i : ℕ) {off n : ℕ} (h : off % bsize + n ≤ bsize) :
    ((List.range' 0 n).map fun j => (V.blk (V.ref i (.ofIndex (off / bsize)))).get
      (off % bsize + j)) = (List.range' off n).map (V.byte i) := by
  rw [List.range'_eq_map_range, List.range'_eq_map_range, List.map_map, List.map_map]
  refine List.map_congr_left fun j hj => ?_
  have hj := List.mem_range.1 hj
  have hd : (off + j) / bsize = off / bsize := by simp only [bsize] at *; omega
  have hm : (off + j) % bsize = off % bsize + j := by simp only [bsize] at *; omega
  simp [byte, hd, hm]

/-- The loop of `readi`, inside the file. -/
theorem readiLoop_wp {dst : Dst} {n k tot off : ℕ} {acc : List UInt8}
    {Q : ℤ × List UInt8 → FsSt → Prop} (hi : (m.itable ip).inum = i) (h : Views s m ip V)
    (ok : VolOk m.sb V) (ht : (V.ino i).type ≠ 0) (hn : tot ≤ n) (hk : n - tot ≤ k)
    (hsize : off + (n - tot) ≤ (V.ino i).size)
    (hQ : ∀ r : ℤ × List UInt8, (dst.Writable n → r.1 = n) →
      (r.1 = n → r.2.length = acc.length + (n - tot)) →
      (Clear V i → r.1 = n → r.2 = acc ++ (List.range' off (n - tot)).map (V.byte i)) → Q r s) :
    wp (store t) err (readiLoop ip dst n k tot off acc) Q s := by
  induction k generalizing tot off acc with
  | zero =>
    obtain rfl : tot = n := by omega
    exact wp_pure (hQ _ (fun _ => rfl) (fun _ => by simp) fun _ _ => by simp)
  | succ k ih =>
    unfold readiLoop
    by_cases hlt : tot < n
    · have hblock : off / bsize * bsize < (V.ino i).size := by simp only [bsize]; omega
      have hx := (ok.filled i ht).block _ hblock
      have hbn : off / bsize < maxfile := by
        have := (ok.filled i ht).size
        simp only [bsize, maxfile] at *
        omega
      have hdata := (ok.owned.used_ref ht hx).1
      rw [if_pos hlt]
      refine wp_bind (bmap_present hi h ok ht hbn hx ?_)
      rw [if_neg hx]
      refine wp_bind (bread_wp fun x hxb => ?_)
      have hread : Clear V i → x = V.blk (V.ref i (.ofIndex (off / bsize))) :=
        fun hd => h.read_eq hdata (hd _ hx) hxb
      by_cases hc : eitherCopyout dst tot (min (n - tot) (bsize - off % bsize)) = true
      · rw [if_pos hc]
        refine wp_bind (brelse_wp ?_)
        have hm : 0 < min (n - tot) (bsize - off % bsize) := by simp only [bsize]; omega
        refine ih (by omega) (by omega) (by omega) fun r hr hl hb => hQ r hr (fun hrn => ?_) fun hd hrn => ?_
        · rw [hl hrn, List.length_append, List.length_map, List.length_range']
          omega
        rw [hb hd hrn, hread hd, blockBytes V i (by simp only [bsize]; omega), List.append_assoc,
          ← List.map_append]
        rw [show off + min (n - tot) (bsize - off % bsize) =
          off + 1 * min (n - tot) (bsize - off % bsize) by omega, List.range'_append]
        congr 3
        omega
      · rw [if_neg hc]
        have hneg : ((-1 : ℤ), acc).1 ≠ n := fun e => by
          have : (0 : ℤ) ≤ n := Int.natCast_nonneg n
          simp only at e
          omega
        exact wp_bind (brelse_wp (wp_pure (hQ _ (fun hw => absurd (hw _ _ (by omega)) hc)
          (fun e => absurd e hneg) fun _ e => absurd e hneg)))
    · obtain rfl : tot = n := by omega
      rw [if_neg hlt]
      exact wp_pure (hQ _ (fun _ => rfl) (fun _ => by simp) fun _ _ => by simp)

/-- `readi` does not change the state, and returns the bytes of the file. -/
theorem readi_wp {dst : Dst} {off n : ℕ} {Q : ℤ × List UInt8 → FsSt → Prop}
    (hi : (m.itable ip).inum = i) (h : Views s m ip V) (ok : VolOk m.sb V)
    (ht : (V.ino i).type ≠ 0)
    (hQ : ∀ r : ℤ × List UInt8, (dst.Writable n → r.1 = r.2.length ∧ r.2.length ≤ n) →
      (off < 2 ^ 32 → n < 2 ^ 32 → Clear V i → dst.Writable n →
        r = ((((V.node i).read off n).length : ℤ), (V.node i).read off n)) → Q r s) :
    wp (store t) err (readi ip dst off n) Q s := by
  refine wp_bind (dinode_views h ?_)
  rw [hi]
  have hnode := node_of_ne ht
  split
  · rename_i hc
    refine wp_pure (hQ _ (fun _ => ⟨rfl, Nat.zero_le _⟩) fun hoff hn _ _ => ?_)
    have hread : (V.node i).read off n = [] := by
      rw [Node.read, if_pos]
      rw [hnode]
      simp only
      omega
    rw [hread]
    rfl
  · rename_i hc
    rw [not_or, not_lt] at hc
    have hlen : (if (V.ino i).size < off + n then (V.ino i).size - off else n) =
        min n ((V.ino i).size - off) := by
      split <;> omega
    simp only [hlen]
    refine readiLoop_wp hi h ok ht (Nat.zero_le _) (Nat.sub_le _ _) (by omega) fun r hr hl hb => ?_
    refine hQ r (fun hw => ?_) fun hoff hn hcl hw => ?_
    · have hr₁ := hr fun a len hle => hw a len (by omega)
      have hl₁ := hl hr₁
      rw [List.length_nil, Nat.zero_add, Nat.sub_zero] at hl₁
      rw [hr₁, hl₁]
      exact ⟨rfl, Nat.min_le_left _ _⟩
    have hr₁ := hr fun a len hle => hw a len (by omega)
    have hread : (V.node i).read off n =
        (List.range' off (min n ((V.ino i).size - off))).map (V.byte i) := by
      rw [Node.read, if_neg (by rw [hnode]; simp only; omega), hnode]
      refine List.map_congr_left fun o ho => if_pos ?_
      have := List.mem_range'_1.1 ho
      simp only at this
      omega
    refine Prod.ext ?_ ?_
    · rw [hr₁, hread]
      simp
    · rw [hb hcl hr₁, hread]
      simp

/-- `readi` of a directory entry. -/
theorem readDirent_wp {k : ℕ} {Q : Option Dirent → FsSt → Prop} (hi : (m.itable ip).inum = i)
    (h : Views s m ip V) (ok : VolOk m.sb V) (ht : (V.ino i).type = tDir)
    (hin : direntSize * k + direntSize ≤ (V.ino i).size → Q (some ((V.node i).ent k)) s)
    (hout : (V.ino i).size < direntSize * k + direntSize → Q none s) :
    wp (store t) err (readDirent ip (direntSize * k)) Q s := by
  have ht0 : (V.ino i).type ≠ 0 := by rw [ht]; decide
  have hsize := (ok.filled i ht0).size
  unfold readDirent
  simp only [direntSize, maxfile, bsize] at *
  refine wp_bind (wp_bind (dinode_views h ?_))
  rw [hi]
  by_cases hc : 16 * k + 16 ≤ (V.ino i).size
  · rw [if_neg (by omega), if_neg (by omega)]
    refine readiLoop_wp hi h ok ht0 (by omega) (by omega) (by omega) fun r hr _ hb => wp_pure ?_
    have hr₁ := hr (Dst.writable_kernel _)
    have hent : (V.node i).ent k = .decode fun j => r.2.getD j 0 := by
      refine Dirent.decode_congr fun j hj => ?_
      simp only [direntSize] at hj ⊢
      rw [hb (fun x hx => (ok.firm i ht0).dir ht x hx) hr₁, node_of_ne ht0]
      simp only
      rw [if_pos (by omega)]
      simp [List.getD_eq_getElem?_getD, hj]
    rw [hr₁, if_pos rfl, ← hent]
    exact hin hc
  · split
    · refine wp_pure (wp_pure ?_)
      rw [if_neg (by simp)]
      exact hout (by omega)
    · rename_i hle
      rw [not_or, not_lt] at hle
      rw [if_pos (by omega)]
      refine readiLoop_wp hi h ok ht0 (by omega) (by omega) (by omega) fun r hr _ _ => wp_pure ?_
      rw [hr (Dst.writable_kernel _), if_neg (by omega)]
      exact hout (by omega)

/-! ## `writei` -/

/-- The bytes of inode `i` from `off` to `off'` are replaced by those of `f`, with blocks added. -/
structure Wrote (V W : Vol) (i off off' : ℕ) (f : ℕ → UInt8) : Prop where
  node : ∀ j, j ≠ i → W.node j = V.node j
  ino : ∀ j, j ≠ i → W.ino j = V.ino j
  self : W.ino i = { V.ino i with addrs := (W.ino i).addrs }
  ref : ∀ x, V.ref i x ≠ 0 → W.ref i x = V.ref i x
  block : ∀ o, off ≤ o → o < off' → W.ref i (.ofIndex (o / bsize)) ≠ 0
  clear : Clear V i → Clear W i
  byte : Clear V i → ∀ o, o / bsize < maxfile →
    V.ref i (.ofIndex (o / bsize)) ≠ 0 ∨ off ≤ o ∧ o < off' →
    W.byte i o = if off ≤ o ∧ o < off' then f o else V.byte i o
  loose : ∀ b, W.loose b → V.loose b

namespace Wrote

variable {V W X : Vol} {off mid off' : ℕ} {f g : ℕ → UInt8}

theorem of_grown (off : ℕ) (f : ℕ → UInt8) (h : Grown V W i) : Wrote V W i off off f := by
  refine ⟨fun j _ => h.node j, h.ino, h.self, h.ref, fun o h₁ h₂ => ?_, h.clear, fun _ o _ ho => ?_,
    h.loose⟩
  · omega
  · rw [if_neg (by omega)]
    exact h.byte o (ho.resolve_right (by omega))

theorem type (h : Wrote V W i off off' f) : (W.ino i).type = (V.ino i).type := by rw [h.self]

theorem size (h : Wrote V W i off off' f) : (W.ino i).size = (V.ino i).size := by rw [h.self]

theorem trans (h₁ : Wrote V W i off mid f) (h₂ : Wrote W X i mid off' g) (hle : off ≤ mid)
    (hle' : mid ≤ off') (hfg : ∀ o, mid ≤ o → g o = f o) : Wrote V X i off off' f := by
  refine ⟨fun j hj => (h₂.node j hj).trans (h₁.node j hj),
    fun j hj => (h₂.ino j hj).trans (h₁.ino j hj), ?_, fun x hx => ?_, fun o ho ho' => ?_,
    fun hc => h₂.clear (h₁.clear hc), fun hc o hmax ho => ?_, fun b hb => h₁.loose b (h₂.loose b hb)⟩
  · rw [h₂.self, h₁.self]
  · have h := h₁.ref x hx
    rw [h₂.ref x (by rw [h]; exact hx), h]
  · by_cases hm : o < mid
    · have hx := h₁.block o ho hm
      rw [h₂.ref _ hx]
      exact hx
    · exact h₂.block o (by omega) ho'
  · have hW : W.ref i (.ofIndex (o / bsize)) ≠ 0 ∨ mid ≤ o ∧ o < off' := by
      rcases ho with ho | ho
      · left
        rw [h₁.ref _ ho]
        exact ho
      · by_cases hm : o < mid
        · exact .inl (h₁.block o ho.1 hm)
        · exact .inr ⟨by omega, ho.2⟩
    rw [h₂.byte (h₁.clear hc) o hmax hW]
    by_cases hm : mid ≤ o ∧ o < off'
    · rw [if_pos hm, if_pos (by omega), hfg o hm.1]
    · rw [if_neg hm, h₁.byte hc o hmax (ho.imp_right fun h => ⟨h.1, by omega⟩)]
      by_cases hm' : off ≤ o ∧ o < mid
      · rw [if_pos hm', if_pos (by omega)]
      · rw [if_neg hm', if_neg (by omega)]

/-- Bytes of one block are replaced. -/
theorem write {sb : Superblock} {n : ℕ} {y : Block} (ok : VolOk sb V) (ht : (V.ino i).type ≠ 0)
    (hx : V.ref i (.ofIndex (off / bsize)) ≠ 0) (hn : off % bsize + n ≤ bsize)
    (hbn : off / bsize < maxfile) (hy : Clear V i →
      y = (V.blk (V.ref i (.ofIndex (off / bsize)))).blit (off % bsize) n fun j => f (off + j)) :
    Wrote V (V.setBlk (V.ref i (.ofIndex (off / bsize))) y) i off (off + n) f := by
  have href : ∀ x, (V.setBlk (V.ref i (.ofIndex (off / bsize))) y).ref i x = V.ref i x :=
    fun x => ref_setBlk (ok.owned.addrs_ne_ref ht hx ht)
  have hsame : ∀ o, off ≤ o → o < off + n → o / bsize = off / bsize := fun o h₁ h₂ => by
    simp only [bsize] at *
    omega
  refine ⟨fun j hj => ok.node_setBlk_of_ne ht hx y hj, fun _ _ => rfl, rfl, fun x _ => href x,
    fun o h₁ h₂ => ?_, fun hc x hxi => ?_, fun hc o hmax ho => ?_, fun b => loose_of_setBlk⟩
  · rw [href, hsame o h₁ h₂]
    exact hx
  · rw [href] at hxi ⊢
    by_cases he : V.ref i x = V.ref i (.ofIndex (off / bsize))
    · rw [he]
      exact not_loose_setBlk_self
    · rw [setBlk_loose_of_ne he]
      exact hc x hxi
  · unfold Vol.byte
    rw [href]
    by_cases hb : o / bsize = off / bsize
    · rw [hb, setBlk_blk_self, hy hc, Bytes.get_blit _ _ _ _ (Nat.mod_lt _ (by decide))]
      refine ite_congr (propext ?_) (fun hin => ?_) fun _ => rfl
      · simp only [bsize] at *
        omega
      · congr 1
        simp only [bsize] at *
        omega
    · have hout : ¬ (off ≤ o ∧ o < off + n) := fun hin => hb (hsame o hin.1 hin.2)
      have hxo := ho.resolve_right hout
      rw [if_neg hout, setBlk_blk_of_ne fun e => hb ?_]
      exact Slot.ofIndex_inj hmax hbn (ok.owned.ref_inj ht ht hx e).2

end Wrote

/-- The state of the buffers differs by unlogged stores to one block. -/
def Spoiled (W X : Vol) : Prop := X = W ∨ ∃ b p, X = W.setLoose b p

theorem copyin_length {u : UserMem} {k va len : ℕ} (hk : len ≤ k) (h : (copyin u k va len).2 = true) :
    (copyin u k va len).1 = len := by
  induction k generalizing va len with
  | zero =>
    obtain rfl : len = 0 := by omega
    rfl
  | succ k ih =>
    unfold copyin at h ⊢
    by_cases h0 : len = 0
    · rw [if_pos h0, h0]
    · rw [if_neg h0] at h ⊢
      by_cases hu : (u (va / 4096)).isNone = true
      · rw [if_pos hu] at h
        cases h
      · rw [if_neg hu] at h ⊢
        have hn : 0 < min (4096 - va % 4096) len := by omega
        have hrest := ih (show len - min (4096 - va % 4096) len ≤ k by omega) h
        simp only [hrest]
        omega

/-- A copy that succeeds is whole. -/
theorem eitherCopyin_length {src : Src} {i len : ℕ} (h : (eitherCopyin src i len).2 = true) :
    (eitherCopyin src i len).1 = len := by
  cases src with
  | kernel f => rfl
  | user u va => exact copyin_length (Nat.le_refl _) h

/-- The first `n` bytes of a source can be read. -/
def Src.Readable (src : Src) (n : ℕ) : Prop :=
  ∀ i len, i + len ≤ n → (eitherCopyin src i len).2 = true

theorem Src.readable_kernel (f : ℕ → UInt8) (n : ℕ) : (Src.kernel f).Readable n := fun _ _ _ => rfl

/-- The number of blocks that `n` bytes at `off` touch. -/
def turns (off n : ℕ) : ℕ := if n = 0 then 0 else (off % bsize + n + (bsize - 1)) / bsize

theorem turns_eq {off n k : ℕ} (hn : n ≠ 0) (hk : k = min n (bsize - off % bsize)) :
    turns off n = 1 + turns (off + k) (n - k) := by
  unfold turns
  rw [if_neg hn]
  simp only [bsize] at *
  split <;> omega

/-- What writing `n` bytes at `off` logs: a block for each turn, the indirect block, and the bits of
those that are new. The block of the first turn is not new when it is there already. -/
def WriteLogs (sb : Superblock) (s s' : FsSt) (V W : Vol) (i off n : ℕ) (I : Finset ℕ) : Prop :=
  ∃ R S : Finset ℕ, Logs sb s s' (R ∪ only ((W.ino i).addrs 12))
      (S ∪ if (V.ino i).addrs 12 = 0 then only ((W.ino i).addrs 12) else ∅) I ∧
    R.card ≤ turns off n ∧
    S.card ≤ turns off n - if V.ref i (.ofIndex (off / bsize)) = 0 then 0 else 1

namespace WriteLogs

variable {sb : Superblock} {s s' s'' : FsSt} {V W X : Vol} {i off n : ℕ}

theorem refl (sb : Superblock) (s : FsSt) (V : Vol) (i off n : ℕ) : WriteLogs sb s s V V i off n ∅ := by
  refine ⟨∅, ∅, (Logs.refl _ s).mono (Finset.empty_subset _) (Finset.empty_subset _)
    (Finset.empty_subset _) fun b hb => ?_, Nat.zero_le _, Nat.zero_le _⟩
  rw [Finset.empty_union] at hb
  split at hb
  · obtain ⟨-, h0⟩ := mem_only hb
    exact absurd ‹_› h0
  · exact absurd hb (Finset.notMem_empty _)

/-- The first turn: what `bmap` logs. -/
theorem of_bmap {r : ℕ} (h : BmapLogs sb s s' V W i (off / bsize) r) (hn : n ≠ 0) :
    WriteLogs sb s s' V W i off n ∅ := by
  have hpos : 1 ≤ turns off n := by
    rw [turns_eq hn rfl]
    omega
  refine ⟨only r, if V.ref i (.ofIndex (off / bsize)) = 0 then only r else ∅, h,
    card_only_le.trans hpos, ?_⟩
  have hr : (only r).card ≤ 1 := card_only_le
  split
  · omega
  · simp

/-- The first turn and the others. -/
theorem cons {r k : ℕ} (h : BmapLogs sb s s' V W i (off / bsize) r) (hn : n ≠ 0)
    (hk : k = min n (bsize - off % bsize)) {y : Vol} {s₁ : FsSt} (hw : Logs sb s' s₁ {r} ∅ ∅)
    (h' : WriteLogs sb s₁ s'' y X i (off + k) (n - k) ∅) (hy : y.ino = W.ino)
    (hWX : (W.ino i).addrs 12 ≠ 0 → (X.ino i).addrs 12 = (W.ino i).addrs 12)
    (hVW : (V.ino i).addrs 12 ≠ 0 → (W.ino i).addrs 12 = (V.ino i).addrs 12) :
    WriteLogs sb s s'' V X i off n ∅ := by
  obtain ⟨R, S, hl, hR, hS⟩ := h'
  have hturns := turns_eq hn hk
  have hsub : only ((W.ino i).addrs 12) ⊆ only ((X.ino i).addrs 12) := by
    refine only_subset fun h0 => ?_
    rw [← hWX h0]
    exact singleton_subset_only (by rw [hWX h0]; exact h0) (Finset.mem_singleton_self _)
  rw [hy] at hl
  have hlog := (Logs.trans h hw).trans hl
  simp only [Finset.union_empty] at hlog
  refine ⟨insert r R, (if V.ref i (.ofIndex (off / bsize)) = 0 then only r else ∅) ∪ S,
    hlog.mono ?_ ?_ (Finset.Subset.refl _) ?_, ?_, ?_⟩
  · refine Finset.union_subset (Finset.union_subset (Finset.union_subset ?_ ?_) ?_)
      (Finset.union_subset ?_ Finset.subset_union_right)
    · exact (only_subset fun _ => Finset.mem_insert_self _ _).trans Finset.subset_union_left
    · exact hsub.trans Finset.subset_union_right
    · exact Finset.singleton_subset_iff.2 (Finset.mem_union_left _ (Finset.mem_insert_self _ _))
    · exact (Finset.subset_insert _ _).trans Finset.subset_union_left
  · refine Finset.union_subset (Finset.union_subset ?_ ?_) (Finset.union_subset ?_ ?_)
    · exact Finset.subset_union_left.trans Finset.subset_union_left
    · split
      · exact hsub.trans Finset.subset_union_right
      · exact Finset.empty_subset _
    · exact Finset.subset_union_right.trans Finset.subset_union_left
    · by_cases hV : (V.ino i).addrs 12 = 0
      · rw [if_pos hV]
        split
        · exact Finset.subset_union_right
        · exact Finset.empty_subset _
      · rw [if_neg (by rw [hVW hV]; exact hV)]
        exact Finset.empty_subset _
  · intro b hb
    rcases Finset.mem_union.1 hb with hb | hb
    · rcases Finset.mem_union.1 hb with hb | hb
      · exact hlog.bits b (Finset.mem_union_left _ (Finset.mem_union_left _ hb))
      · exact hlog.bits b (Finset.mem_union_right _ (Finset.mem_union_left _ hb))
    · by_cases hV : (V.ino i).addrs 12 = 0
      · by_cases hW : (W.ino i).addrs 12 = 0
        · rw [if_pos hV] at hb
          refine hlog.bits b (Finset.mem_union_right _ (Finset.mem_union_right _ ?_))
          rw [if_pos hW]
          exact hb
        · rw [hWX hW] at hb
          exact hlog.bits b (Finset.mem_union_left _ (Finset.mem_union_right _ hb))
      · rw [if_neg hV] at hb
        exact absurd hb (Finset.notMem_empty _)
  · exact (Finset.card_insert_le _ _).trans (by omega)
  · have hr' : (only r).card ≤ 1 := card_only_le
    refine (Finset.card_union_le _ _).trans ?_
    split
    · omega
    · simp
      omega

end WriteLogs

/-- The loop of `writei`. -/
theorem writeiLoop_wp {src : Src} {n k tot off : ℕ} {Q : ℕ × ℕ → FsSt → Prop}
    (hi : (m.itable ip).inum = i) (h : Views s m ip V) (hop : 0 < s.outstanding)
    (ok : VolOk m.sb V) (ht : (V.ino i).type ≠ 0)
    (hsrc : (V.ino i).type = tDir → src.Readable n) (hn : tot ≤ n)
    (hk : n - tot ≤ k) (hmax : off + (n - tot) ≤ maxfile * bsize)
    (hQ : ∀ s' W X (r : ℕ × ℕ), Views s' m ip X → VolOk m.sb X →
      Wrote V W i off r.2 (fun o => src.get (tot + (o - off))) → Spoiled W X → tot ≤ r.1 → r.1 ≤ n →
      r.2 = off + (r.1 - tot) → (r.1 = tot ∨ tot + min (n - tot) (bsize - off % bsize) ≤ r.1) →
      (src.Readable n → X = W ∧ (r.1 = n ∨ W.Full m.sb ∧ V.ref i (.ofIndex (r.2 / bsize)) = 0)) →
      WriteLogs m.sb s s' V W i off (n - tot) ∅ → Q r s') :
    wp (store t) err (writeiLoop ip src n k tot off) Q s := by
  induction k generalizing tot off s V with
  | zero =>
    exact wp_pure (hQ s V V (tot, off) h ok (.of_grown _ _ (.refl V i)) (.inl rfl) (Nat.le_refl _) hn
      (by simp) (.inl rfl) (fun _ => ⟨rfl, .inl (by simp only; omega)⟩) (.refl _ s V i off _))
  | succ k ih =>
    unfold writeiLoop
    by_cases hlt : tot < n
    · have hbn : off / bsize < maxfile := by
        simp only [bsize, maxfile] at *
        omega
      rw [if_pos hlt]
      have hrest : n - tot ≠ 0 := by omega
      refine wp_bind (bmap_wp hi h hop ok ht hbn fun s₁ W a h₁ ok₁ g ha hfull hlog => ?_)
      have hop₁ := Logs.still hlog hop
      by_cases ha0 : a = 0
      · rw [if_pos ha0]
        exact wp_pure (hQ s₁ W W (tot, off) h₁ ok₁ (.of_grown _ _ g) (.inl rfl) (Nat.le_refl _) hn
          (by simp) (.inl rfl) (fun _ => ⟨rfl, .inr (hfull ha0)⟩) (.of_bmap hlog hrest))
      · obtain rfl := ha ha0
        have ht₁ : (W.ino i).type ≠ 0 := by rw [g.type]; exact ht
        have hdata := (ok₁.owned.used_ref ht₁ ha0).1
        rw [if_neg ha0]
        refine wp_bind (bread_wp fun x hxb => ?_)
        have hx : Clear W i → x = W.blk (W.ref i (.ofIndex (off / bsize))) :=
          fun hc => h₁.read_eq hdata (hc _ ha0) hxb
        by_cases hc : (eitherCopyin src tot (min (n - tot) (bsize - off % bsize))).2 = true
        · have hm : 0 < min (n - tot) (bsize - off % bsize) := by simp only [bsize]; omega
          rw [if_pos hc, eitherCopyin_length hc]
          refine wp_bind (logWrite_views h₁ hop₁ hdata fun s₂ h₂ hlog₂ => ?_)
          refine wp_bind (brelse_wp ?_)
          have w : Wrote W _ i off (off + min (n - tot) (bsize - off % bsize))
              fun o => src.get (tot + (o - off)) :=
            Wrote.write (y := x.blit (off % bsize) (min (n - tot) (bsize - off % bsize))
              fun j => src.get (tot + j)) ok₁ ht₁ ha0 (by simp only [bsize]; omega) hbn fun hcl => by
                rw [hx hcl]
                congr 1
                funext j
                congr 2
                omega
          have w' := (Wrote.of_grown off (fun o => src.get (tot + (o - off))) g).trans
            w (Nat.le_refl _) (by omega) fun _ _ => rfl
          refine ih h₂ (hlog₂.still hop₁) (ok₁.setBlk ht₁ ha0 _) (by rw [setBlk_ino]; exact ht₁)
            (by rw [setBlk_ino, g.type]; exact hsrc) (by omega) (by omega) (by omega)
            fun s' Y X r hv okX wr hsp h₁' h₂' h₃' _ hread hlog' => ?_
          refine hQ s' Y X r hv okX (w'.trans wr (by omega) (by omega) fun o ho => ?_) hsp (by omega)
            h₂' (by omega) (.inr h₁') (fun hs => (hread hs).imp_right fun hr => hr.imp_right fun hf =>
              ⟨hf.1, by_contra fun hne => hne ((w'.ref _ hne).symm.trans hf.2)⟩) ?_
          · congr 1
            omega
          · rw [show n - (tot + min (n - tot) (bsize - off % bsize)) =
              n - tot - min (n - tot) (bsize - off % bsize) by omega] at hlog'
            exact .cons hlog hrest rfl hlog₂ hlog' rfl (wr.ref (.addr 12)) (g.ref (.addr 12))
        · rw [if_neg hc]
          have htd : (W.ino i).type ≠ tDir := fun hd => by
            rw [g.type] at hd
            exact hc (hsrc hd _ _ (by omega))
          refine wp_bind (scribble_views h₁ hdata fun s₂ h₂ hlog₂ => ?_)
          refine wp_bind (brelse_wp (wp_pure ?_))
          exact hQ s₂ W _ (tot, off) h₂ (ok₁.setLoose ht₁ htd ha0 _) (.of_grown _ _ g)
            (.inr ⟨_, _, rfl⟩) (Nat.le_refl _) hn (by simp) (.inl rfl)
            (fun hs => absurd (hs _ _ (by omega)) hc) (.of_bmap (Logs.trans_right hlog hlog₂) hrest)
    · rw [if_neg hlt]
      exact wp_pure (hQ s V V (tot, off) h ok (.of_grown _ _ (.refl V i)) (.inl rfl) (Nat.le_refl _) hn
        (by simp) (.inl rfl) (fun _ => ⟨rfl, .inl (by simp only; omega)⟩) (.refl _ s V i off _))

theorem Spoiled.ino {W X : Vol} (h : Spoiled W X) : X.ino = W.ino := by
  rcases h with rfl | ⟨b, p, rfl⟩ <;> rfl

theorem Spoiled.ref {W X : Vol} (h : Spoiled W X) (i : ℕ) (x : Slot) : X.ref i x = W.ref i x := by
  rcases h with rfl | ⟨b, p, rfl⟩
  · rfl
  · exact ref_setLoose

theorem Spoiled.node {W X : Vol} (h : Spoiled W X) (i : ℕ) : X.node i = W.node i := by
  rcases h with rfl | ⟨b, p, rfl⟩
  · rfl
  · exact node_setLoose

theorem Spoiled.byte {W X : Vol} (h : Spoiled W X) (i o : ℕ) : X.byte i o = W.byte i o := by
  unfold Vol.byte
  rw [h.ref]
  rcases h with rfl | ⟨b, p, rfl⟩ <;> rfl

/-- The file after the loop of `writei` and the update of its size. -/
theorem Wrote.node_self {sb : Superblock} {W X : Vol} {off n : ℕ} {f : ℕ → UInt8}
    (ok : VolOk sb V) (w : Wrote V W i off (off + n) fun o => f (o - off)) (hsp : Spoiled W X)
    (ht : (V.ino i).type ≠ 0) (hoff : off ≤ (V.ino i).size) (hmax : off + n ≤ maxfile * bsize)
    (hc : Clear V i) :
    (X.setIno i { X.ino i with size := max (V.ino i).size (off + n) }).node i =
      (V.node i).write off n f := by
  have hself : X.ino i = { V.ino i with addrs := (W.ino i).addrs } := by rw [hsp.ino, w.self]
  have htX : (X.ino i).type ≠ 0 := by rw [hself]; exact ht
  have hsz := (ok.filled i ht).size
  rw [node_of_ne (by simpa using htX), node_of_ne ht]
  simp only [setIno_ino_self, Node.write]
  rw [hself]
  congr 1
  funext o
  rw [byte_setIno_of_addrs (by rw [hself]), hsp.byte]
  simp only [bsize, maxfile] at hmax hsz
  by_cases hin : off ≤ o ∧ o < off + n
  · rw [if_pos (by omega), if_pos hin, w.byte hc o (by simp only [bsize, maxfile]; omega) (.inr hin),
      if_pos hin]
  · rw [if_neg hin]
    by_cases ho : o < (V.ino i).size
    · have hx := (ok.filled i ht).block (o / bsize) (by simp only [bsize]; omega)
      rw [if_pos (by omega), if_pos ho, w.byte hc o (by simp only [bsize, maxfile]; omega) (.inl hx),
        if_neg hin]
    · rw [if_neg (by omega), if_neg ho]

/-- **What `writei` does**: it writes `r` bytes, and the rest of the file, and the other files, are
as before. -/
theorem writei_wp {src : Src} {off n : ℕ} {Q : ℤ → FsSt → Prop} (hi : (m.itable ip).inum = i)
    (h : Views s m ip V) (hop : 0 < s.outstanding) (hnum : i < m.sb.ninodes)
    (hfits : (V.ino i).Fits) (ok : VolOk m.sb V) (ht : (V.ino i).type ≠ 0)
    (hsrc : (V.ino i).type = tDir → src.Readable n)
    (hbad : (V.ino i).size < off ∨ maxfile * bsize < off + n → Q (-1) s)
    (hQ : ∀ s' W (r : ℕ), off ≤ (V.ino i).size → r ≤ n →
      (off % bsize + n ≤ bsize → r = 0 ∨ r = n) → Shows s' (m.setD ip (W.ino i)) W →
      VolOk m.sb W → (∀ j, j ≠ i → W.ino j = V.ino j) → (∀ j, j ≠ i → W.node j = V.node j) →
      W.ino i = { V.ino i with size := max (V.ino i).size (off + r), addrs := (W.ino i).addrs } →
      (Clear V i → W.node i = (V.node i).write off r src.get) →
      (src.Readable n → (∀ b, W.loose b → V.loose b) ∧
        (r = n ∨ W.Full m.sb ∧ V.ref i (.ofIndex ((off + r) / bsize)) = 0)) →
      WriteLogs m.sb s s' V W i off n {i} → Q r s') :
    wp (store t) err (writei ip src off n) Q s := by
  have hfsz := (ok.filled i ht).size
  refine wp_bind (dinode_views h ?_)
  rw [hi]
  by_cases hc : (V.ino i).size < off ∨ (off + n) % 2 ^ 32 < off
  · rw [if_pos hc]
    refine wp_pure (hbad ?_)
    simp only [bsize, maxfile] at *
    omega
  rw [if_neg hc]
  by_cases hmax : maxfile * bsize < off + n
  · rw [if_pos hmax]
    exact wp_pure (hbad (.inr hmax))
  rw [if_neg hmax]
  rw [not_or, not_lt] at hc
  refine wp_bind (writeiLoop_wp hi h hop ok ht hsrc (Nat.zero_le _) (Nat.le_refl _) (by omega)
    fun s₁ W X r h₁ okX w hsp _ hr hoff hone hread hlog => ?_)
  obtain ⟨r, off'⟩ := r
  simp only [Nat.sub_zero, Nat.zero_add] at hr hoff w hone hread hlog
  subst hoff
  have hself : X.ino i = { V.ino i with addrs := (W.ino i).addrs } := by rw [hsp.ino, w.self]
  have htX : (X.ino i).type ≠ 0 := by rw [hself]; exact ht
  have hsize : (if (X.ino i).size < off + r then { X.ino i with size := off + r } else X.ino i) =
      { X.ino i with size := max (V.ino i).size (off + r) } := by
    have hsz : (X.ino i).size = (V.ino i).size := by rw [hself]
    rw [hsz]
    split
    · rw [max_eq_right (by omega)]
    · rw [max_eq_left (by omega), ← hsz]
  have hle : max (V.ino i).size (off + r) ≤ maxfile * bsize := by omega
  have hblocks : ∀ k, k * bsize < max (V.ino i).size (off + r) → X.ref i (.ofIndex k) ≠ 0 := by
    intro k hk
    rw [hsp.ref]
    by_cases hks : k * bsize < (V.ino i).size
    · have hx := (ok.filled i ht).block k hks
      rw [w.ref _ hx]
      exact hx
    · have := w.block (k * bsize) (by omega) (by omega)
      rwa [Nat.mul_div_cancel _ (by decide)] at this
  refine wp_bind (setDinode_views h₁ fun s₂ h₂ hlog₂ => ?_)
  rw [hi, hsize] at h₂
  have ok₂ : VolOk m.sb (X.setIno i { X.ino i with size := max (V.ino i).size (off + r) }) :=
    okX.setIno htX htX id rfl hle hblocks
  have hfit : (X.setIno i { X.ino i with size := max (V.ino i).size (off + r) }).ino i |>.Fits := by
    rw [setIno_ino_self]
    refine ⟨?_, ?_, ?_, ?_, ?_, okX.addrs_lt h.layout htX⟩
    · rw [hself]; exact hfits.type
    · rw [hself]; exact hfits.major
    · rw [hself]; exact hfits.minor
    · rw [hself]; exact hfits.nlink
    · simp only [bsize, maxfile] at hle
      simp only
      omega
  have hop₂ : 0 < s₂.outstanding := by
    obtain ⟨R, S, hl, -⟩ := hlog
    exact hlog₂.still (hl.still hop)
  refine wp_bind (iupdate_views h₂ hop₂ (by rw [hi]; exact hnum) (by rw [hi]; exact hfit)
    fun s₃ h₃ hlog₃ => wp_pure ?_)
  rw [hi] at h₃ hlog₃
  refine hQ s₃ _ r (by omega) hr (fun hle => hone.imp_right fun h => by omega) h₃ ok₂
    (fun j hj => ?_) (fun j hj => ?_) ?_ (fun hcl => ?_) (fun hs => ?_) ?_
  · rw [setIno_ino_of_ne hj, hsp.ino, w.ino j hj]
  · rw [node_setIno_of_ne hj, hsp.node, w.node j hj]
  · rw [setIno_ino_self, hself]
  · exact w.node_self ok hsp ht (by omega) (by omega) hcl
  · obtain ⟨rfl, hr⟩ := hread hs
    exact ⟨w.loose, hr⟩
  · obtain ⟨R, S, hl, hR, hS⟩ := hlog
    refine ⟨R, S, ?_, hR, hS⟩
    rw [setIno_ino_self, hsp.ino]
    simpa using (hl.trans_right hlog₂).trans hlog₃

/-! ## `itrunc` -/

/-- Blocks of inode `i` are given up; the blocks keep their contents. -/
structure Trimmed (sb : Superblock) (V W : Vol) (i : ℕ) : Prop where
  ino : ∀ j, j ≠ i → W.ino j = V.ino j
  self : W.ino i = { V.ino i with addrs := (W.ino i).addrs }
  blk : W.blk = V.blk
  loose : W.loose = V.loose
  marked : ∀ b < dataStart sb, W.bit b = V.bit b

namespace Trimmed

variable {sb : Superblock} {W X : Vol} {a : ℕ}

theorem refl : Trimmed sb V V i := ⟨fun _ _ => rfl, rfl, rfl, rfl, fun _ _ => rfl⟩

theorem trans (h₁ : Trimmed sb V W i) (h₂ : Trimmed sb W X i) : Trimmed sb V X i := by
  refine ⟨fun j hj => (h₂.ino j hj).trans (h₁.ino j hj), ?_, h₂.blk.trans h₁.blk,
    h₂.loose.trans h₁.loose, fun b hb => (h₂.marked b hb).trans (h₁.marked b hb)⟩
  rw [h₂.self, h₁.self]

theorem type (h : Trimmed sb V W i) : (W.ino i).type = (V.ino i).type := by rw [h.self]

theorem setBit (ha : IsData sb a) : Trimmed sb V (V.setBit a false) i :=
  ⟨fun _ _ => rfl, rfl, rfl, rfl, fun _ hb => setBit_bit_of_ne (lt_of_lt_of_le hb ha.1).ne⟩

theorem setAddr {k : Fin 13} : Trimmed sb V (V.setIno i ((V.ino i).setAddr k a)) i :=
  ⟨fun _ hj => setIno_ino_of_ne hj, by simp [Dinode.setAddr], rfl, rfl, fun _ _ => rfl⟩

theorem ref_of_ne (h : Trimmed sb V W i) {j : ℕ} (hj : j ≠ i) (x : Slot) : W.ref j x = V.ref j x := by
  cases x <;> simp only [Vol.ref, h.ino j hj, h.blk]

theorem node_of_ne (h : Trimmed sb V W i) {j : ℕ} (hj : j ≠ i) : W.node j = V.node j := by
  refine node_congr (by rw [h.ino j hj]) fun _ _ _ => ?_
  unfold Vol.byte
  rw [h.ref_of_ne hj, h.blk]

end Trimmed

theorem itruncDirect_wp {ks : List (Fin 13)} {Q : Unit → FsSt → Prop} (hks : 12 ∉ ks)
    (hi : (m.itable ip).inum = i) (h : Views s m ip V) (hop : 0 < s.outstanding)
    (ho : Owned m.sb V) (ht : (V.ino i).type ≠ 0)
    (hQ : ∀ s' W, Views s' m ip W → Owned m.sb W → Trimmed m.sb V W i →
      (W.ino i).addrs 12 = (V.ino i).addrs 12 →
      (∀ k, k ∈ ks ∨ (V.ino i).addrs k = 0 → (W.ino i).addrs k = 0) →
      (∃ B, Logs m.sb s s' ∅ B ∅) → Q () s') :
    wp (store t) err (itruncDirect ip ks) Q s := by
  induction ks generalizing s V with
  | nil =>
    exact wp_pure (hQ s V h ho .refl rfl (fun k hk => hk.resolve_left (by simp)) ⟨∅, .refl _ s⟩)
  | cons k ks ih =>
    have hk12 : k ≠ 12 := fun e => hks (by simp [e])
    have hks' : 12 ∉ ks := fun hm => hks (List.mem_cons_of_mem _ hm)
    unfold itruncDirect
    refine wp_bind (dinode_views h ?_)
    rw [hi]
    by_cases ha : (V.ino i).addrs k ≠ 0
    · rw [if_pos ha]
      obtain ⟨hdata, hbit⟩ := ho.used_ref (x := .addr k) ht ha
      refine wp_bind (bfree_views h hop hdata hbit fun s₁ h₁ hlog₁ => ?_)
      refine wp_bind (setDinode_views h₁ fun s₂ h₂ hlog₂ => ?_)
      rw [hi] at h₂
      have htr : Trimmed m.sb V ((V.setBit ((V.ino i).addrs k) false).setIno i
          ((V.ino i).setAddr k 0)) i := (Trimmed.setBit hdata).trans .setAddr
      refine ih hks' h₂ (hlog₂.still (hlog₁.still hop)) (ho.dropAddr hk12 ht rfl ha) (by simpa using ht)
        fun s' W hv hoW htW h12 hz hB => hQ s' W hv hoW (htr.trans htW) ?_ (fun l hl => hz l ?_) ?_
      · rw [h12]
        simp [setAddr_addrs_of_ne hk12.symm]
      · by_cases hlk : l = k
        · subst hlk
          exact .inr (by simp)
        · rw [setIno_ino_self, setBit_ino, setAddr_addrs_of_ne hlk]
          exact hl.imp_left fun hm => (List.mem_cons.1 hm).resolve_left hlk
      · obtain ⟨B, hB⟩ := hB
        exact ⟨_, (hlog₁.trans_right hlog₂).trans hB⟩
    · rw [if_neg ha]
      rw [not_not] at ha
      refine ih hks' h hop ho ht fun s' W hv hoW htW h12 hz => hQ s' W hv hoW htW h12 fun l hl => hz l ?_
      by_cases hlk : l = k
      · subst hlk
        exact .inr ha
      · exact hl.imp_left fun hm => (List.mem_cons.1 hm).resolve_left hlk

theorem itruncIndirect_wp {n k : ℕ} {Q : Unit → FsSt → Prop} (hn : n + k = 256)
    (h : Views s m ip V) (hop : 0 < s.outstanding) (ho : Own.Exact (V.holdsFrom i n) (V.Used m.sb))
    (ht : (V.ino i).type ≠ 0) (h12 : (V.ino i).addrs 12 ≠ 0)
    (hQ : ∀ s' W, Views s' m ip W → Own.Exact (W.holdsFrom i 256) (W.Used m.sb) →
      Trimmed m.sb V W i → W.ino i = V.ino i → (∃ B, Logs m.sb s s' ∅ B ∅) → Q () s') :
    wp (store t) err (itruncIndirect (V.blk ((V.ino i).addrs 12)) (List.range' n k)) Q s := by
  -- the entries before `n` are given up; the block that lists them does not change
  generalize hx : V.blk ((V.ino i).addrs 12) = x
  induction k generalizing n s V with
  | zero =>
    obtain rfl : n = 256 := by omega
    exact wp_pure (hQ s V h ho .refl rfl ⟨∅, .refl _ s⟩)
  | succ k ih =>
    have hn256 : n < 256 := by omega
    have href : V.ref i (.leaf ⟨n, hn256⟩) = x.rd (4 * n) 4 := by
      rw [ref, if_neg h12, hx]
    rw [List.range'_succ]
    unfold itruncIndirect
    by_cases ha : x.rd (4 * n) 4 ≠ 0
    · rw [if_pos ha]
      have hhold : V.holdsFrom i n (i, .leaf ⟨n, hn256⟩) = some (x.rd (4 * n) 4) := by
        simp only [holdsFrom, lt_irrefl, and_false, if_false]
        exact holds_eq_some.2 ⟨ht, ha, href⟩
      obtain ⟨hdata, hbit⟩ := ho.used_of_holds hhold
      refine wp_bind (bfree_views h hop hdata hbit fun s₁ h₁ hlog₁ => ?_)
      refine ih (by omega) h₁ (hlog₁.still hop) (exact_dropLeaf ho (l := ⟨n, hn256⟩) rfl ht href ha) ht h12
        (fun s' W hv hoW htW hself hB => ?_) hx
      obtain ⟨B, hB⟩ := hB
      exact hQ s' W hv hoW ((Trimmed.setBit hdata).trans htW) hself ⟨_, hlog₁.trans hB⟩
    · rw [if_neg ha]
      rw [not_not] at ha
      exact ih (by omega) h hop (exact_skipLeaf ho (l := ⟨n, hn256⟩) rfl (href.trans ha)) ht h12 hQ hx

/-- **What `itrunc` does**: the file is empty and its blocks are free. -/
theorem itrunc_wp {Q : Unit → FsSt → Prop} (hi : (m.itable ip).inum = i) (h : Views s m ip V)
    (hop : 0 < s.outstanding) (hnum : i < m.sb.ninodes) (hfits : (V.ino i).Fits) (ok : VolOk m.sb V)
    (ht : (V.ino i).type ≠ 0)
    (hQ : ∀ s' W, Shows s' (m.setD ip (W.ino i)) W → VolOk m.sb W →
      (∀ j, j ≠ i → W.ino j = V.ino j) → (∀ j, j ≠ i → W.node j = V.node j) →
      W.ino i = { V.ino i with size := 0, addrs := fun _ => 0 } → W.loose = V.loose →
      (∃ B, Logs m.sb s s' ∅ B {i}) → Q () s') :
    wp (store t) err (itrunc ip) Q s := by
  -- the end of `itrunc`, when all addresses are zero
  have hend : ∀ s' W, Views s' m ip W → Owned m.sb W → Trimmed m.sb V W i →
      (∀ k, (W.ino i).addrs k = 0) → (∃ B, Logs m.sb s s' ∅ B ∅) → wp (store t) err
        (do setDinode ip fun d => { d with size := 0 }; iupdate ip) Q s' := by
    rintro s' W hv hoW htr hz ⟨B, hB⟩
    have hino : { W.ino i with size := 0 } = { V.ino i with size := 0, addrs := fun _ => 0 } := by
      have hz' : (W.ino i).addrs = fun _ => 0 := funext hz
      rw [htr.self, hz']
    refine wp_bind (setDinode_views hv fun s₁ h₁ hlog₁ => ?_)
    rw [hi, hino] at h₁
    refine iupdate_views h₁ (hlog₁.still (hB.still hop)) (by rw [hi]; exact hnum) ?_
      fun s₂ h₂ hlog₂ => ?_
    · rw [hi, setIno_ino_self]
      exact ⟨hfits.type, hfits.major, hfits.minor, hfits.nlink, Nat.pow_pos (by decide),
        fun _ => Nat.pow_pos (by decide)⟩
    · rw [hi] at h₂ hlog₂
      have href : ∀ j x, (W.setIno i { V.ino i with size := 0, addrs := fun _ => 0 }).ref j x =
          if j = i then 0 else V.ref j x := fun j x => by
        by_cases hj : j = i
        · subst hj
          rw [if_pos rfl]
          cases x with
          | addr k => simp [ref]
          | leaf l => exact ref_leaf_of_zero (by simp)
        · rw [if_neg hj, ref_setIno_of_ne hj, htr.ref_of_ne hj]
      have hown : Owned m.sb (W.setIno i { V.ino i with size := 0, addrs := fun _ => 0 }) := by
        refine hoW.setIno ?_ ?_
        · rw [htr.type]
        · exact (funext hz).symm
      have hinoj : ∀ j, j ≠ i →
          (W.setIno i { V.ino i with size := 0, addrs := fun _ => 0 }).ino j = V.ino j :=
        fun j hj => by rw [setIno_ino_of_ne hj, htr.ino j hj]
      refine hQ s₂ _ h₂ ⟨hown, fun b hb => ?_, fun j htj => ⟨?_, fun k hk => ?_⟩,
        fun j htj => ⟨fun hc => ?_, fun hd x hx => ?_⟩⟩ hinoj (fun j hj => ?_) (by simp)
        (by rw [setIno_loose, htr.loose]) ⟨B, by simpa using (hB.trans_right hlog₁).trans hlog₂⟩
      · rw [setIno_bit, htr.marked b hb, ok.marked b hb]
      · by_cases hj : j = i
        · subst hj
          simp
        · rw [hinoj j hj] at htj ⊢
          exact (ok.filled j htj).size
      · by_cases hj : j = i
        · subst hj
          simp at hk
        · rw [hinoj j hj] at htj hk
          rw [href, if_neg hj]
          exact (ok.filled j htj).block k hk
      · by_cases hj : j = i
        · subst hj
          simp at hc
        · rw [hinoj j hj] at htj hc ⊢
          rw [setIno_loose, htr.loose]
          exact (ok.firm j htj).indirect hc
      · by_cases hj : j = i
        · subst hj
          simp [href] at hx
        · rw [hinoj j hj] at htj hd
          rw [href, if_neg hj] at hx ⊢
          rw [setIno_loose, htr.loose]
          exact (ok.firm j htj).dir hd x hx
      · rw [node_setIno_of_ne hj, htr.node_of_ne hj]
  have hdirect : ∀ k : Fin 13, k ≠ 12 → k ∈ (List.finRange 12).map Fin.castSucc := by decide
  refine wp_bind (itruncDirect_wp (by decide) hi h hop ok.owned ht
    fun s₁ W h₁ hoW htr h12 hz hB₁ => ?_)
  have htW : (W.ino i).type ≠ 0 := by rw [htr.type]; exact ht
  refine wp_bind (dinode_views h₁ ?_)
  rw [hi]
  by_cases ha : (W.ino i).addrs 12 ≠ 0
  · rw [if_pos ha]
    have hdata : IsData m.sb ((W.ino i).addrs 12) := (hoW.used_ref (x := .addr 12) htW ha).1
    have hfirm : ¬ W.loose ((W.ino i).addrs 12) := by
      rw [htr.loose, h12]
      exact (ok.firm i ht).indirect (by rw [← h12]; exact ha)
    refine wp_bind (bread_views h₁ hdata hfirm ?_)
    obtain ⟨B₁, hB₁⟩ := hB₁
    have hop₁ := hB₁.still hop
    refine wp_bind (itruncIndirect_wp rfl h₁ hop₁ (by rw [holdsFrom_zero]; exact hoW) htW ha
      fun s₂ X h₂ hoX htrX hself hB₂ => ?_)
    refine wp_bind (brelse_wp ?_)
    have hX12 : (X.ino i).addrs 12 = (W.ino i).addrs 12 := by rw [hself]
    have htX : (X.ino i).type ≠ 0 := by rw [hself]; exact htW
    have hused := hoX.used_of_holds (x := (i, .addr 12)) (a := (W.ino i).addrs 12)
      (holds_eq_some.2 ⟨htX, ha, hX12⟩)
    obtain ⟨B₂, hB₂⟩ := hB₂
    refine wp_bind (bfree_views h₂ (hB₂.still hop₁) hused.1 hused.2 fun s₃ h₃ hlog₃ => ?_)
    refine wp_bind (setDinode_views h₃ fun s₄ h₄ hlog₄ => ?_)
    rw [hi] at h₄
    refine hend s₄ _ h₄ (owned_dropIndirect hoX htX hX12 ha)
      (((htr.trans htrX).trans (.setBit hdata)).trans .setAddr) (fun k => ?_)
      ⟨_, ((hB₁.trans hB₂).trans hlog₃).trans_right hlog₄⟩
    by_cases hk : k = 12
    · subst hk
      simp
    · rw [setIno_ino_self, setAddr_addrs_of_ne hk, setBit_ino, hself]
      exact hz k (.inl (hdirect k hk))
  · rw [if_neg ha]
    rw [not_not] at ha
    refine hend s₁ W h₁ hoW htr (fun k => ?_) hB₁
    by_cases hk : k = 12
    · rw [hk, ha]
    · exact hz k (.inl (hdirect k hk))

end Xv6.Fs
