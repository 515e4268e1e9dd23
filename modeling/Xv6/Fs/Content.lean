import Xv6.Fs.Owner

/-!
# Files as bytes

An inode with its blocks is a node: its type, link count and size, and its contents, a byte for
each offset. `VolOk` is what the code keeps true of a volume: exact ownership, no holes below the
size of a file, and no unlogged stores in indirect blocks and directories.
-/

namespace Xv6

open Own Vol

/-- A file, directory or device. -/
structure Node where
  type : ℕ
  major : ℕ
  minor : ℕ
  nlink : ℕ
  size : ℕ
  data : ℕ → UInt8

/-- No file. -/
def Node.free : Node := ⟨0, 0, 0, 0, 0, fun _ => 0⟩

/-- A file with `n` bytes replaced from offset `off` on. -/
def Node.write (nd : Node) (off n : ℕ) (f : ℕ → UInt8) : Node :=
  { nd with
    size := max nd.size (off + n)
    data := fun o => if off ≤ o ∧ o < off + n then f (o - off) else nd.data o }

/-- What `readi` returns of a file: nothing when the range wraps or starts beyond the file. -/
def Node.read (nd : Node) (off n : ℕ) : List UInt8 :=
  if nd.size < off ∨ 2 ^ 32 ≤ off + n then []
  else (List.range' off (min n (nd.size - off))).map nd.data

/-- Entry `k` of a directory. -/
def Node.ent (n : Node) (k : ℕ) : Dirent := .decode fun j => n.data (direntSize * k + j)

namespace Vol

variable {V W : Vol} {i j a b off : ℕ} {d : Dinode} {x : Slot} {v : Bool} {y : Block}

/-- The byte of inode `i` at an offset. -/
def byte (V : Vol) (i off : ℕ) : UInt8 :=
  (V.blk (V.ref i (.ofIndex (off / bsize)))).get (off % bsize)

/-- The node of an inode. -/
def node (V : Vol) (i : ℕ) : Node :=
  if (V.ino i).type = 0 then .free
  else
    { type := (V.ino i).type
      major := (V.ino i).major
      minor := (V.ino i).minor
      nlink := (V.ino i).nlink
      size := (V.ino i).size
      data := fun off => if off < (V.ino i).size then V.byte i off else 0 }

/-- A block for each block index below the size. -/
structure Filled (V : Vol) (i : ℕ) : Prop where
  size : (V.ino i).size ≤ maxfile * bsize
  block : ∀ k, k * bsize < (V.ino i).size → V.ref i (.ofIndex k) ≠ 0

/-- The buffer of the indirect block, and those of the blocks of a directory, are as logged. -/
structure Firm (V : Vol) (i : ℕ) : Prop where
  indirect : (V.ino i).addrs 12 ≠ 0 → ¬ V.loose ((V.ino i).addrs 12)
  dir : (V.ino i).type = tDir → ∀ x, V.ref i x ≠ 0 → ¬ V.loose (V.ref i x)

theorem node_type : (V.node i).type = (V.ino i).type := by
  unfold node
  split
  · exact ‹(V.ino i).type = 0›.symm
  · rfl

theorem node_of_ne (h : (V.ino i).type ≠ 0) : V.node i =
    ⟨(V.ino i).type, (V.ino i).major, (V.ino i).minor, (V.ino i).nlink, (V.ino i).size,
      fun off => if off < (V.ino i).size then V.byte i off else 0⟩ := if_neg h

theorem node_of_eq (h : (V.ino i).type = 0) : V.node i = .free := if_pos h

/-- A node is kept when the fields of its inode and its blocks are. -/
theorem node_congr (hino : W.ino i = { V.ino i with addrs := (W.ino i).addrs })
    (hbyte : (V.ino i).type ≠ 0 → ∀ off < (V.ino i).size, W.byte i off = V.byte i off) :
    W.node i = V.node i := by
  by_cases ht : (V.ino i).type = 0
  · rw [node_of_eq ht, node_of_eq (by rw [hino]; exact ht)]
  · rw [node_of_ne ht, node_of_ne (by rw [hino]; exact ht), hino]
    congr 1
    funext off
    exact ite_congr rfl (fun h => hbyte ht off h) fun _ => rfl

theorem byte_setBlk_of_ne (h : V.ref i (.ofIndex (off / bsize)) ≠ b)
    (h12 : (V.ino i).addrs 12 ≠ b) : (V.setBlk b y).byte i off = V.byte i off := by
  unfold byte
  rw [ref_setBlk h12, setBlk_blk_of_ne h]

theorem byte_setIno_of_ne (h : j ≠ i) : (V.setIno i d).byte j off = V.byte j off := by
  unfold byte
  rw [ref_setIno_of_ne h, setIno_blk]

theorem byte_setIno_of_addrs (h : d.addrs = (V.ino i).addrs) :
    (V.setIno i d).byte j off = V.byte j off := by
  unfold byte
  rw [ref_setIno_of_addrs h, setIno_blk]

@[simp] theorem byte_setBit : (V.setBit b v).byte i off = V.byte i off := by
  unfold byte
  rw [ref_setBit, setBit_blk]

theorem node_setIno_of_ne (h : j ≠ i) : (V.setIno i d).node j = V.node j := by
  refine node_congr ?_ fun _ _ _ => byte_setIno_of_ne h
  rw [setIno_ino_of_ne h]

@[simp] theorem node_setLoose {p : Prop} : (V.setLoose b p).node i = V.node i := by
  refine node_congr rfl fun _ _ _ => ?_
  unfold byte
  rw [ref_setLoose, setLoose_blk]

end Vol

/-- What the code keeps true of a volume. -/
structure VolOk (sb : Superblock) (V : Vol) : Prop where
  owned : Owned sb V
  marked : ∀ b < dataStart sb, V.bit b = true
  filled : ∀ i, (V.ino i).type ≠ 0 → V.Filled i
  firm : ∀ i, (V.ino i).type ≠ 0 → V.Firm i

/-- No block of inode `i` has unlogged stores. -/
def Clear (V : Vol) (i : ℕ) : Prop := ∀ x, V.ref i x ≠ 0 → ¬ V.loose (V.ref i x)

/-- Blocks are added to inode `i`; the files are the same. -/
structure Grown (V W : Vol) (i : ℕ) : Prop where
  node : ∀ j, W.node j = V.node j
  ino : ∀ j, j ≠ i → W.ino j = V.ino j
  self : W.ino i = { V.ino i with addrs := (W.ino i).addrs }
  ref : ∀ x, V.ref i x ≠ 0 → W.ref i x = V.ref i x
  byte : ∀ o, V.ref i (.ofIndex (o / bsize)) ≠ 0 → W.byte i o = V.byte i o
  clear : Clear V i → Clear W i
  loose : ∀ b, W.loose b → V.loose b

namespace Grown

variable {V W X : Vol} {i : ℕ}

theorem refl (V : Vol) (i : ℕ) : Grown V V i :=
  ⟨fun _ => rfl, fun _ _ => rfl, rfl, fun _ _ => rfl, fun _ _ => rfl, id, fun _ => id⟩

theorem trans (h₁ : Grown V W i) (h₂ : Grown W X i) : Grown V X i := by
  refine ⟨fun j => (h₂.node j).trans (h₁.node j), fun j hj => (h₂.ino j hj).trans (h₁.ino j hj), ?_,
    fun x hx => ?_, fun o ho => ?_, fun hc => h₂.clear (h₁.clear hc),
    fun b hb => h₁.loose b (h₂.loose b hb)⟩
  · rw [h₂.self, h₁.self]
  · have h := h₁.ref x hx
    rw [h₂.ref x (by rw [h]; exact hx), h]
  · rw [h₂.byte o (by rw [h₁.ref _ ho]; exact ho), h₁.byte o ho]

theorem type (h : Grown V W i) : (W.ino i).type = (V.ino i).type := by rw [h.self]

theorem size (h : Grown V W i) : (W.ino i).size = (V.ino i).size := by rw [h.self]

end Grown

section Grow

variable {V W : Vol} {sb : Superblock} {i a : ℕ}

/-- Blocks that are new have no unlogged stores. -/
theorem Clear.of_new (hl : ∀ b, W.loose b → V.loose b)
    (hself : ∀ x, W.ref i x = V.ref i x ∨ ¬ W.loose (W.ref i x)) (hc : Clear V i) : Clear W i := by
  intro x hx
  rcases hself x with he | hn
  · rw [he] at hx ⊢
    exact fun hlo => hc x hx (hl _ hlo)
  · exact hn

theorem VolOk.of_grown (h : VolOk sb V) (g : Grown V W i) (ho : Owned sb W)
    (hm : ∀ b < dataStart sb, W.bit b = true) (hl : ∀ b, W.loose b → V.loose b)
    (hother : ∀ j, j ≠ i → (V.ino j).type ≠ 0 → ∀ x, W.ref j x = V.ref j x)
    (hself : ∀ x, W.ref i x = V.ref i x ∨ ¬ W.loose (W.ref i x)) : VolOk sb W := by
  have htype : ∀ j, (W.ino j).type = (V.ino j).type := fun j => by
    rw [← node_type, ← node_type, g.node]
  have hsize : ∀ j, (W.ino j).size = (V.ino j).size := fun j => by
    by_cases hj : j = i
    · rw [hj, g.size]
    · rw [g.ino j hj]
  have href : ∀ j, (V.ino j).type ≠ 0 → ∀ x, V.ref j x ≠ 0 → W.ref j x = V.ref j x := fun j ht x hx => by
    by_cases hj : j = i
    · rw [hj] at hx ⊢
      exact g.ref x hx
    · exact hother j hj ht x
  have hfirm : ∀ j, (V.ino j).type ≠ 0 → ∀ x, (V.ref j x ≠ 0 → ¬ V.loose (V.ref j x)) →
      W.ref j x ≠ 0 → ¬ W.loose (W.ref j x) := fun j ht x hV hx => by
    have hkept : W.ref j x = V.ref j x → ¬ W.loose (W.ref j x) := fun e hlo =>
      hV (by rw [← e]; exact hx) (hl _ (by rw [← e]; exact hlo))
    by_cases hj : j = i
    · rw [hj] at hkept ⊢
      exact (hself x).elim hkept id
    · exact hkept (hother j hj ht x)
  refine ⟨ho, hm, fun j ht => ⟨?_, fun k hk => ?_⟩, fun j ht => ⟨?_, fun hd x => ?_⟩⟩
  · rw [hsize]
    exact (h.filled j (by rwa [htype] at ht)).size
  · rw [htype] at ht
    rw [hsize] at hk
    have hx := (h.filled j ht).block k hk
    rw [href j ht _ hx]
    exact hx
  · rw [htype] at ht
    exact hfirm j ht (.addr 12) (h.firm j ht).indirect
  · rw [htype] at ht hd
    exact hfirm j ht x ((h.firm j ht).dir hd x)

/-- A new block for an empty place in `addrs[]`. -/
theorem VolOk.addAddr (hL : Layout sb) (h : VolOk sb V) {k : Fin 13} (ht : (V.ino i).type ≠ 0)
    (hk : (V.ino i).addrs k = 0) (ha : IsData sb a) (hbit : V.bit a = false) :
    let W := (V.alloc a).setIno i ((V.ino i).setAddr k a)
    VolOk sb W ∧ Grown V W i ∧ ∀ x, x ≠ .addr k → W.ref i x = V.ref i x := by
  intro W
  have ha0 : a ≠ 0 := hL.ne_zero ha
  have hfree : ¬ V.Used sb a := fun hu => by simp [hu.2] at hbit
  have h12 : ∀ j, (V.ino j).type ≠ 0 → (V.ino j).addrs 12 ≠ a := fun j htj =>
    h.owned.ref_ne_of_fresh (x := .addr 12) hfree ha0 htj
  have hself : ∀ x, x ≠ .addr k → W.ref i x = V.ref i x := by
    rintro (l | l) hne
    · have hl : l ≠ k := fun e => hne (by rw [e])
      simp [W, ref, setAddr_addrs_of_ne hl]
    · by_cases hk12 : (12 : Fin 13) = k
      · have hz : (Bytes.zero 1024).rd (4 * l) 4 = 0 := by simp [Bytes.rd]
        subst hk12
        rw [ref_leaf_of_zero hk]
        simp [W, ref, hz]
      · simp [W, ref, setAddr_addrs_of_ne hk12, setBlk_blk_of_ne (h12 i ht)]
  have hother : ∀ j, j ≠ i → (V.ino j).type ≠ 0 → ∀ x, W.ref j x = V.ref j x :=
    fun j hj htj x => by
      rw [ref_setIno_of_ne hj, ref_setBlk (by simpa using h12 j htj), ref_setBit]
  have hloose : ∀ b, W.loose b → V.loose b := fun b hb => by
    by_cases hba : b = a
    · subst hba
      exact (not_loose_setBlk_self (y := .zero _) hb).elim
    · simpa [W, setBlk_loose_of_ne hba] using hb
  have hnew : ∀ x, W.ref i x = V.ref i x ∨ ¬ W.loose (W.ref i x) := fun x => by
    by_cases hx : x = .addr k
    · right
      subst hx
      simp [W, ref, setBlk]
    · exact .inl (hself x hx)
  have hbyte : ∀ o, V.ref i (.ofIndex (o / bsize)) ≠ 0 → W.byte i o = V.byte i o := fun o hx => by
    have hne : Slot.ofIndex (o / bsize) ≠ .addr k := by
      intro e
      rw [e] at hx
      exact hx hk
    unfold byte
    rw [hself _ hne, setIno_blk, setBlk_blk_of_ne (h.owned.ref_ne_of_fresh hfree ha0 ht),
      setBit_blk]
  have g : Grown V W i := by
    refine ⟨fun j => ?_, fun j hj => by simp [W, setIno_ino_of_ne hj], by simp [W, Dinode.setAddr],
      fun x hx => hself x ?_, hbyte, .of_new hloose hnew, hloose⟩
    · by_cases hj : j = i
      · subst hj
        refine node_congr (by simp [W, Dinode.setAddr]) fun _ off hoff => hbyte off ?_
        exact (h.filled j ht).block (off / bsize) (by simp only [bsize]; omega)
      · rw [node_setIno_of_ne hj]
        refine node_congr rfl fun htj off hoff => ?_
        rw [byte_setBlk_of_ne, byte_setBit]
        · simpa using h.owned.ref_ne_of_fresh hfree ha0 htj
        · simpa using h12 j htj
    · rintro rfl
      exact hx hk
  refine ⟨h.of_grown g (h.owned.addAddr hL ht hk ha hbit) (fun b hb => ?_) hloose hother hnew, g,
    hself⟩
  have hba : b ≠ a := (lt_of_lt_of_le hb ha.1).ne
  simpa [W, setBit_bit_of_ne hba] using h.marked b hb

/-- A new block for an empty entry of the indirect block. -/
theorem VolOk.addLeaf (hL : Layout sb) (h : VolOk sb V) {l : Fin 256} (ht : (V.ino i).type ≠ 0)
    (hc : (V.ino i).addrs 12 ≠ 0) (hl : V.ref i (.leaf l) = 0) (ha : IsData sb a)
    (hbit : V.bit a = false) :
    let W := (V.alloc a).setBlk ((V.ino i).addrs 12)
      ((V.blk ((V.ino i).addrs 12)).wr (4 * l) 4 a)
    VolOk sb W ∧ Grown V W i ∧ W.ref i (.leaf l) = a ∧
      ∀ x, x ≠ .leaf l → W.ref i x = V.ref i x := by
  intro W
  have ha0 : a ≠ 0 := hL.ne_zero ha
  have hfree : ¬ V.Used sb a := fun hu => by simp [hu.2] at hbit
  obtain ⟨ho, hleaf, hself⟩ := h.owned.addLeaf hL ht hc hl ha hbit
  have h12 : ∀ j, (V.ino j).type ≠ 0 → (V.ino j).addrs 12 ≠ a := fun j htj =>
    h.owned.ref_ne_of_fresh (x := .addr 12) hfree ha0 htj
  have hne12 : ∀ j, j ≠ i → (V.ino j).type ≠ 0 → (V.ino j).addrs 12 ≠ (V.ino i).addrs 12 :=
    fun j hj htj e => hj (h.owned.ref_inj (x := .addr 12) (z := .addr 12) ht htj hc e).1
  have hother : ∀ j, j ≠ i → (V.ino j).type ≠ 0 → ∀ x, W.ref j x = V.ref j x :=
    fun j hj htj x => by
      rw [ref_setBlk (by simpa using hne12 j hj htj), ref_setBlk (by simpa using h12 j htj),
        ref_setBit]
  -- a file block is neither the new block nor the indirect block
  have hblk : ∀ j k, (V.ino j).type ≠ 0 → V.ref j (.ofIndex k) ≠ 0 →
      W.blk (V.ref j (.ofIndex k)) = V.blk (V.ref j (.ofIndex k)) := fun j k htj hx => by
    have hnc : V.ref j (.ofIndex k) ≠ (V.ino i).addrs 12 := fun e =>
      Slot.ofIndex_ne k (h.owned.ref_inj (x := .addr 12) ht htj hc e).2
    simp only [W]
    rw [setBlk_blk_of_ne hnc, setBlk_blk_of_ne (h.owned.ref_ne_of_fresh hfree ha0 htj), setBit_blk]
  have hloose : ∀ b, W.loose b → V.loose b ∧ b ≠ a := fun b hb => by
    by_cases hbc : b = (V.ino i).addrs 12
    · rw [hbc] at hb
      exact absurd hb not_loose_setBlk_self
    · simp only [W] at hb
      rw [setBlk_loose_of_ne hbc] at hb
      by_cases hba : b = a
      · subst hba
        exact absurd hb not_loose_setBlk_self
      · rw [setBlk_loose_of_ne hba] at hb
        exact ⟨hb, hba⟩
  have hnew : ∀ x, W.ref i x = V.ref i x ∨ ¬ W.loose (W.ref i x) := fun x => by
    by_cases hx : x = .leaf l
    · right
      rw [hx, hleaf]
      exact fun hlo => (hloose a hlo).2 rfl
    · exact .inl (hself x hx)
  have hbyte : ∀ j o, (V.ino j).type ≠ 0 → V.ref j (.ofIndex (o / bsize)) ≠ 0 →
      W.byte j o = V.byte j o := fun j o htj hx => by
    have href : W.ref j (.ofIndex (o / bsize)) = V.ref j (.ofIndex (o / bsize)) := by
      by_cases hj : j = i
      · subst hj
        refine hself _ fun e => ?_
        rw [e] at hx
        exact hx hl
      · exact hother j hj htj _
    unfold byte
    rw [href, hblk j _ htj hx]
  have g : Grown V W i := by
    refine ⟨fun j => ?_, fun _ _ => rfl, rfl, fun x hx => hself x ?_, fun o => hbyte i o ht,
      .of_new (fun b hb => (hloose b hb).1) hnew, fun b hb => (hloose b hb).1⟩
    · refine node_congr rfl fun htj off hoff => hbyte j off htj ?_
      exact (h.filled j htj).block (off / bsize) (by simp only [bsize]; omega)
    · rintro rfl
      exact hx hl
  refine ⟨h.of_grown g ho (fun b hb => ?_) (fun b hb => (hloose b hb).1) hother hnew, g, hleaf,
    hself⟩
  have hba : b ≠ a := (lt_of_lt_of_le hb ha.1).ne
  simpa [W, setBit_bit_of_ne hba] using h.marked b hb

end Grow

/-! ## Contents of blocks -/

section Write

variable {V : Vol} {sb : Superblock} {i j k : ℕ}

/-- A block of a file is no indirect block. -/
theorem Owned.addrs_ne_ref (h : Owned sb V) (ht : (V.ino i).type ≠ 0)
    (hx : V.ref i (.ofIndex k) ≠ 0) (htj : (V.ino j).type ≠ 0) :
    (V.ino j).addrs 12 ≠ V.ref i (.ofIndex k) := fun e =>
  Slot.ofIndex_ne k (h.ref_inj (z := .addr 12) ht htj hx e).2.symm

theorem VolOk.setBlk (h : VolOk sb V) (ht : (V.ino i).type ≠ 0) (hx : V.ref i (.ofIndex k) ≠ 0)
    (y : Block) : VolOk sb (V.setBlk (V.ref i (.ofIndex k)) y) := by
  have href : ∀ j x, (V.ino j).type ≠ 0 →
      (V.setBlk (V.ref i (.ofIndex k)) y).ref j x = V.ref j x := fun j x htj =>
    ref_setBlk (h.owned.addrs_ne_ref ht hx htj)
  have hl : ∀ b, (V.setBlk (V.ref i (.ofIndex k)) y).loose b → V.loose b := fun b => loose_of_setBlk
  refine ⟨h.owned.setBlk fun j htj => h.owned.addrs_ne_ref ht hx htj, h.marked,
    fun j htj => ⟨(h.filled j htj).size, fun l hl => ?_⟩, fun j htj => ⟨fun hc hlo => ?_,
    fun hd x hx hlo => ?_⟩⟩
  · rw [href j _ htj]
    exact (h.filled j htj).block l hl
  · exact (h.firm j htj).indirect hc (hl _ hlo)
  · rw [href j x htj] at hx hlo
    exact (h.firm j htj).dir hd x hx (hl _ hlo)

theorem VolOk.node_setBlk_of_ne (h : VolOk sb V) (ht : (V.ino i).type ≠ 0)
    (hx : V.ref i (.ofIndex k) ≠ 0) (y : Block) (hj : j ≠ i) :
    (V.setBlk (V.ref i (.ofIndex k)) y).node j = V.node j := by
  refine node_congr rfl fun htj off hoff => byte_setBlk_of_ne (fun e => hj ?_) ?_
  · exact (h.owned.ref_inj ht htj hx e).1
  · exact h.owned.addrs_ne_ref ht hx htj

/-- Unlogged stores to a block of a file that is no directory. -/
theorem VolOk.setLoose (h : VolOk sb V) (ht : (V.ino i).type ≠ 0) (htd : (V.ino i).type ≠ tDir)
    (hx : V.ref i (.ofIndex k) ≠ 0) (p : Prop) :
    VolOk sb (V.setLoose (V.ref i (.ofIndex k)) p) := by
  refine ⟨h.owned.congr (fun ⟨j, x⟩ => holds_congr Iff.rfl fun _ => ref_setLoose) fun _ => Iff.rfl,
    h.marked, fun j htj => ⟨(h.filled j htj).size, fun l hl => ?_⟩, fun j htj => ⟨fun hc => ?_,
    fun hd x hxj => ?_⟩⟩
  · rw [ref_setLoose]
    exact (h.filled j htj).block l hl
  · rw [setLoose_ino, setLoose_loose_of_ne (h.owned.addrs_ne_ref ht hx htj)]
    exact (h.firm j htj).indirect hc
  · rw [ref_setLoose] at hxj ⊢
    rw [setLoose_loose_of_ne]
    · exact (h.firm j htj).dir hd x hxj
    · intro e
      rw [setLoose_ino, (h.owned.ref_inj ht htj hx e).1] at hd
      exact htd hd

/-- A change of the fields of an inode. -/
theorem VolOk.setIno (h : VolOk sb V) {d : Dinode} (ht : (V.ino i).type ≠ 0) (hd : d.type ≠ 0)
    (hdir : d.type = tDir → (V.ino i).type = tDir) (ha : d.addrs = (V.ino i).addrs)
    (hs : d.size ≤ maxfile * bsize) (hb : ∀ k, k * bsize < d.size → V.ref i (.ofIndex k) ≠ 0) :
    VolOk sb (V.setIno i d) := by
  refine ⟨h.owned.setIno (by simp [ht, hd]) ha, h.marked, fun j htj => ⟨?_, fun k hk => ?_⟩,
    fun j htj => ⟨fun hc => ?_, fun hdj x hx => ?_⟩⟩ <;> by_cases hj : j = i
  · subst hj
    simpa using hs
  · rw [setIno_ino_of_ne hj] at htj ⊢
    exact (h.filled j htj).size
  · subst hj
    rw [ref_setIno_of_addrs ha]
    exact hb k (by simpa using hk)
  · rw [setIno_ino_of_ne hj] at htj hk
    rw [ref_setIno_of_addrs ha]
    exact (h.filled j htj).block k hk
  · subst hj
    simp only [setIno_ino_self, ha, setIno_loose] at hc ⊢
    exact (h.firm j ht).indirect hc
  · rw [setIno_ino_of_ne hj] at htj hc ⊢
    exact (h.firm j htj).indirect hc
  · subst hj
    rw [ref_setIno_of_addrs ha] at hx ⊢
    exact (h.firm j ht).dir (hdir (by simpa using hdj)) x hx
  · rw [setIno_ino_of_ne hj] at htj hdj
    rw [ref_setIno_of_addrs ha] at hx ⊢
    exact (h.firm j htj).dir hdj x hx

/-- An inode without blocks is allocated or freed. -/
theorem VolOk.setIno_empty (h : VolOk sb V) {d : Dinode}
    (hi : (V.ino i).type = 0 ∨ ∀ x, V.ref i x = 0) (hd : ∀ k, d.addrs k = 0) (hs : d.size = 0) :
    VolOk sb (V.setIno i d) := by
  have hzero : ∀ x, (V.setIno i d).ref i x = 0 := fun x => by
    cases x with
    | addr k => simpa [ref] using hd k
    | leaf l => exact ref_leaf_of_zero (by simpa using hd 12)
  refine ⟨h.owned.setIno_empty hi hd, h.marked, fun j htj => ⟨?_, fun k hk => ?_⟩,
    fun j htj => ⟨fun hc => ?_, fun hdj x hx => ?_⟩⟩ <;> by_cases hj : j = i
  · subst hj
    simp [hs]
  · rw [setIno_ino_of_ne hj] at htj ⊢
    exact (h.filled j htj).size
  · subst hj
    simp [hs] at hk
  · rw [setIno_ino_of_ne hj] at htj hk
    rw [ref_setIno_of_ne hj]
    exact (h.filled j htj).block k hk
  · subst hj
    exact absurd (by simpa using hd 12) hc
  · rw [setIno_ino_of_ne hj] at htj hc ⊢
    exact (h.firm j htj).indirect hc
  · subst hj
    exact absurd (hzero x) hx
  · rw [setIno_ino_of_ne hj] at htj hdj
    rw [ref_setIno_of_ne hj] at hx ⊢
    exact (h.firm j htj).dir hdj x hx

/-- Block addresses fit their fields. -/
theorem VolOk.addrs_lt (h : VolOk sb V) (hL : Layout sb) (ht : (V.ino i).type ≠ 0) (k : Fin 13) :
    (V.ino i).addrs k < 256 ^ 4 := by
  by_cases hk : (V.ino i).addrs k = 0
  · rw [hk]
    decide
  · exact hL.lt (h.owned.used_ref (x := .addr k) ht hk).1

end Write

end Xv6
