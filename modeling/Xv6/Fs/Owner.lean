import Xv6.Lib.Own
import Xv6.Fs.Blocks

/-!
# Who owns a block

The places where a block address stands: `addrs[]` of an inode, and the entries of its indirect
block. Ownership is exact when the data blocks marked in the free map are exactly the addresses
that stand in the places of allocated inodes, each in one place. This module says what each kind
of update of a volume does to the places.
-/

namespace Xv6

open Own

instance neZero_leaves : NeZero (256 : ℕ) := ⟨by decide⟩

/-- A place for a block address in an inode. -/
inductive Slot
  | addr (k : Fin 13)
  | leaf (j : Fin 256)
  deriving DecidableEq

/-- The place of the address of block `k` of a file. -/
def Slot.ofIndex (k : ℕ) : Slot :=
  if h : k < ndirect then .addr ⟨k, lt_addrs h⟩ else .leaf (Fin.ofNat 256 (k - ndirect))

theorem Slot.ofIndex_ne (k : ℕ) : ofIndex k ≠ .addr 12 := by
  unfold ofIndex
  by_cases h : k < ndirect
  · rw [dif_pos h]
    intro e
    exact h.ne (congrArg Fin.val (Slot.addr.inj e))
  · rw [dif_neg h]
    intro e
    cases e

theorem Slot.ofIndex_inj {k l : ℕ} (hk : k < maxfile) (hl : l < maxfile)
    (h : ofIndex k = ofIndex l) : k = l := by
  unfold ofIndex at h
  simp only [maxfile, ndirect] at *
  split at h <;> split at h
  · exact congrArg Fin.val (Slot.addr.inj h)
  · cases h
  · cases h
  · have := congrArg Fin.val (Slot.leaf.inj h)
    simp only [Fin.ofNat] at this
    omega

namespace Vol

variable {V : Vol} {sb : Superblock} {i j a b k : ℕ} {d : Dinode} {x : Slot} {v : Bool} {y : Block}

/-- The address in a place of inode `i`; `0` when there is none. -/
def ref (V : Vol) (i : ℕ) : Slot → ℕ
  | .addr k => (V.ino i).addrs k
  | .leaf j => if (V.ino i).addrs 12 = 0 then 0 else (V.blk ((V.ino i).addrs 12)).rd (4 * j) 4

/-- The block that a place of an allocated inode holds. -/
def holds (V : Vol) (p : ℕ × Slot) : Option ℕ :=
  if (V.ino p.1).type = 0 ∨ V.ref p.1 p.2 = 0 then none else some (V.ref p.1 p.2)

/-- The data blocks marked in the free map. -/
def Used (V : Vol) (sb : Superblock) (b : ℕ) : Prop := IsData sb b ∧ V.bit b = true

theorem holds_eq_some : V.holds (i, x) = some a ↔
    (V.ino i).type ≠ 0 ∧ a ≠ 0 ∧ V.ref i x = a := by
  unfold holds
  by_cases h : (V.ino i).type = 0 ∨ V.ref i x = 0
  · rw [if_pos h]
    refine ⟨fun h' => (by cases h'), ?_⟩
    rintro ⟨h₁, h₂, rfl⟩
    exact absurd h (by simp [h₁, h₂])
  · rw [if_neg h, Option.some.injEq]
    rw [not_or] at h
    refine ⟨?_, fun h' => h'.2.2⟩
    rintro rfl
    exact ⟨h.1, h.2, rfl⟩

theorem holds_eq_none : V.holds (i, x) = none ↔ (V.ino i).type = 0 ∨ V.ref i x = 0 := by
  unfold holds
  split <;> simp_all

/-- An address in a place of an allocated inode. -/
theorem holds_ref (ht : (V.ino i).type ≠ 0) (hx : V.ref i x ≠ 0) :
    V.holds (i, x) = some (V.ref i x) := holds_eq_some.2 ⟨ht, hx, rfl⟩

theorem holds_congr {W : Vol} (ht : (W.ino i).type = 0 ↔ (V.ino i).type = 0)
    (hr : (V.ino i).type ≠ 0 → W.ref i x = V.ref i x) : W.holds (i, x) = V.holds (i, x) := by
  unfold holds
  by_cases h : (V.ino i).type = 0
  · rw [if_pos (.inl (ht.2 h)), if_pos (.inl h)]
  · simp only [h, mt ht.1 h, false_or, hr h]

/-! ## Components of updates -/

@[simp] theorem setBit_ino : (V.setBit b v).ino = V.ino := rfl

@[simp] theorem setBit_blk : (V.setBit b v).blk = V.blk := rfl

@[simp] theorem setBit_loose : (V.setBit b v).loose = V.loose := rfl

@[simp] theorem setBlk_ino : (V.setBlk b y).ino = V.ino := rfl

@[simp] theorem setBlk_bit : (V.setBlk b y).bit = V.bit := rfl

@[simp] theorem setIno_bit : (V.setIno i d).bit = V.bit := rfl

@[simp] theorem setIno_blk : (V.setIno i d).blk = V.blk := rfl

@[simp] theorem setIno_loose : (V.setIno i d).loose = V.loose := rfl

@[simp] theorem setLoose_ino {p : Prop} : (V.setLoose b p).ino = V.ino := rfl

@[simp] theorem setLoose_bit {p : Prop} : (V.setLoose b p).bit = V.bit := rfl

@[simp] theorem setLoose_blk {p : Prop} : (V.setLoose b p).blk = V.blk := rfl

@[simp] theorem setIno_ino_self : (V.setIno i d).ino i = d := Function.update_self ..

theorem setIno_ino_of_ne (h : j ≠ i) : (V.setIno i d).ino j = V.ino j :=
  Function.update_of_ne h ..

@[simp] theorem setIno_setIno {d' : Dinode} : (V.setIno i d).setIno i d' = V.setIno i d' := by
  simp [setIno]

theorem setIno_setBit : (V.setIno i d).setBit b v = (V.setBit b v).setIno i d := rfl

theorem setIno_setBlk : (V.setIno i d).setBlk b y = (V.setBlk b y).setIno i d := rfl

theorem setIno_setLoose {p : Prop} :
    (V.setIno i d).setLoose b p = (V.setLoose b p).setIno i d := rfl

theorem setIno_eq_self (h : V.ino i = d) : V.setIno i d = V := by
  rw [setIno, ← h, Function.update_eq_self]

@[simp] theorem setBit_bit_self : (V.setBit b v).bit b = v := Function.update_self ..

theorem setBit_bit_of_ne (h : a ≠ b) : (V.setBit b v).bit a = V.bit a :=
  Function.update_of_ne h ..

@[simp] theorem setBlk_blk_self : (V.setBlk b y).blk b = y := Function.update_self ..

theorem setBlk_blk_of_ne (h : a ≠ b) : (V.setBlk b y).blk a = V.blk a :=
  Function.update_of_ne h ..

theorem not_loose_setBlk_self : ¬ (V.setBlk b y).loose b := by
  simp [setBlk]

theorem setBlk_loose_of_ne (h : a ≠ b) : (V.setBlk b y).loose a = V.loose a :=
  Function.update_of_ne h ..

theorem loose_of_setBlk (h : (V.setBlk b y).loose a) : V.loose a := by
  by_cases hab : a = b
  · exact absurd (hab ▸ h) not_loose_setBlk_self
  · rwa [setBlk_loose_of_ne hab] at h

theorem setLoose_loose_of_ne {p : Prop} (h : a ≠ b) : (V.setLoose b p).loose a = V.loose a :=
  Function.update_of_ne h ..

@[simp] theorem setAddr_addrs_self {k : Fin 13} : (d.setAddr k a).addrs k = a := by
  simp [Dinode.setAddr]

theorem setAddr_addrs_of_ne {k l : Fin 13} (h : l ≠ k) : (d.setAddr k a).addrs l = d.addrs l := by
  simp [Dinode.setAddr, h]

@[simp] theorem setAddr_type {k : Fin 13} : (d.setAddr k a).type = d.type := rfl

@[simp] theorem setAddr_size {k : Fin 13} : (d.setAddr k a).size = d.size := rfl

/-! ## Places under updates -/

@[simp] theorem ref_setBit : (V.setBit b v).ref i x = V.ref i x := by
  cases x <;> rfl

@[simp] theorem ref_setLoose {p : Prop} : (V.setLoose b p).ref i x = V.ref i x := by
  cases x <;> rfl

theorem ref_setIno_of_ne (h : j ≠ i) : (V.setIno i d).ref j x = V.ref j x := by
  cases x <;> simp only [ref, setIno_ino_of_ne h, setIno_blk]

theorem ref_setIno_of_addrs (h : d.addrs = (V.ino i).addrs) :
    (V.setIno i d).ref j x = V.ref j x := by
  by_cases hj : j = i
  · subst hj
    cases x <;> simp only [ref, setIno_ino_self, setIno_blk, h]
  · exact ref_setIno_of_ne hj

theorem ref_setBlk (h : (V.ino i).addrs 12 ≠ b) : (V.setBlk b y).ref i x = V.ref i x := by
  cases x with
  | addr k => rfl
  | leaf j => simp only [ref, setBlk_ino, setBlk_blk_of_ne h]

theorem ref_leaf_of_zero {j : Fin 256} (h : (V.ino i).addrs 12 = 0) : V.ref i (.leaf j) = 0 := by
  rw [ref, if_pos h]

end Vol

open Vol

/-- Ownership of the blocks of a volume is exact. -/
def Owned (sb : Superblock) (V : Vol) : Prop := Exact V.holds (V.Used sb)

section Exact

variable {V : Vol} {sb : Superblock} {i j a b : ℕ} {d : Dinode} {x : Slot} {y : Block}

/-- A block that is not in use stands nowhere. -/
theorem Owned.ref_ne_of_fresh (h : Owned sb V) (ha : ¬ V.Used sb a) (ha0 : a ≠ 0)
    (ht : (V.ino i).type ≠ 0) : V.ref i x ≠ a := by
  intro hr
  exact h.fresh ha (holds_eq_some.2 ⟨ht, ha0, hr⟩)

theorem Owned.used_ref (h : Owned sb V) (ht : (V.ino i).type ≠ 0) (hx : V.ref i x ≠ 0) :
    V.Used sb (V.ref i x) := h.used_of_holds (holds_ref ht hx)

/-- An address stands in one place. -/
theorem Owned.ref_inj (h : Owned sb V) {z : Slot} (ht : (V.ino i).type ≠ 0)
    (ht' : (V.ino j).type ≠ 0) (hx : V.ref i x ≠ 0) (hr : V.ref j z = V.ref i x) :
    j = i ∧ z = x := by
  have h₁ := holds_ref ht hx
  have h₂ : V.holds (j, z) = some (V.ref i x) := holds_eq_some.2 ⟨ht', hx, hr⟩
  exact Prod.mk.inj (h.inj h₂ h₁)

/-- A free block, marked and zeroed, goes to an empty place in `addrs[]`. -/
theorem Owned.addAddr (hL : Layout sb) (h : Owned sb V) {k : Fin 13}
    (ht : (V.ino i).type ≠ 0) (hk : (V.ino i).addrs k = 0) (ha : IsData sb a)
    (hbit : V.bit a = false) :
    Owned sb ((V.alloc a).setIno i ((V.ino i).setAddr k a)) := by
  have ha0 : a ≠ 0 := hL.ne_zero ha
  have hfree : ¬ V.Used sb a := fun hu => by simp [hu.2] at hbit
  refine h.put (x := (i, .addr k)) (a := a) (holds_eq_none.2 (.inr (by simpa [ref] using hk)))
    hfree ?_ ?_ ?_
  · exact holds_eq_some.2 ⟨by simpa using ht, ha0, by simp [ref]⟩
  · rintro ⟨j, x⟩ hne
    by_cases hj : j = i
    · subst hj
      refine holds_congr (by simp) fun _ => ?_
      cases x with
      | addr l =>
        have hl : l ≠ k := fun e => hne (by rw [e])
        simp [ref, setAddr_addrs_of_ne hl]
      | leaf l =>
        by_cases h12 : (12 : Fin 13) = k
        · -- the new indirect block is zero
          have hz : (Bytes.zero 1024).rd (4 * l) 4 = 0 := by
            simp [Bytes.rd]
          subst h12
          rw [ref_leaf_of_zero hk]
          simp [ref, hz]
        · have hne12 : (V.ino j).addrs 12 ≠ a := h.ref_ne_of_fresh (x := .addr 12) hfree ha0 ht
          simp [ref, setAddr_addrs_of_ne h12, setBlk_blk_of_ne hne12]
    · refine holds_congr (by simp [setIno_ino_of_ne hj]) fun htj => ?_
      have hne12 : (V.ino j).addrs 12 ≠ a := h.ref_ne_of_fresh (x := .addr 12) hfree ha0 htj
      rw [ref_setIno_of_ne hj, ref_setBlk (by simpa using hne12), ref_setBit]
  · intro b
    by_cases hb : b = a
    · subst hb
      simp [Used, ha]
    · simp [Used, hb, setBit_bit_of_ne hb]

/-- A free block, marked and zeroed, goes to an empty entry of an indirect block. -/
theorem Owned.addLeaf (hL : Layout sb) (h : Owned sb V) {l : Fin 256}
    (ht : (V.ino i).type ≠ 0) (hc : (V.ino i).addrs 12 ≠ 0) (hl : V.ref i (.leaf l) = 0)
    (ha : IsData sb a) (hbit : V.bit a = false) :
    let W := (V.alloc a).setBlk ((V.ino i).addrs 12)
      ((V.blk ((V.ino i).addrs 12)).wr (4 * l) 4 a)
    Owned sb W ∧ W.ref i (.leaf l) = a ∧
      ∀ x, x ≠ .leaf l → W.ref i x = V.ref i x := by
  intro W
  have ha0 : a ≠ 0 := hL.ne_zero ha
  have hfree : ¬ V.Used sb a := fun hu => by simp [hu.2] at hbit
  have hl4 : 4 * l.val + 4 ≤ 1024 := by have := l.isLt; omega
  have hself : W.ref i (.leaf l) = a := by
    simp only [W, ref, setBlk_ino, setBit_ino, if_neg hc, setBlk_blk_self]
    exact Bytes.rd_wr_of_lt _ hl4 (hL.lt ha)
  have hother : ∀ x, x ≠ .leaf l → W.ref i x = V.ref i x := by
    rintro (k | l') hne
    · rfl
    · have hll : l'.val ≠ l.val := fun e => hne (by rw [Fin.ext e])
      simp only [W, ref, setBlk_ino, setBit_ino, if_neg hc, setBlk_blk_self]
      exact Bytes.rd_wr_of_disjoint _ _ (by omega)
  refine ⟨h.put (x := (i, .leaf l)) (a := a) (holds_eq_none.2 (.inr hl)) hfree ?_ ?_ ?_, hself, hother⟩
  · exact holds_eq_some.2 ⟨ht, ha0, hself⟩
  · rintro ⟨j, x⟩ hne
    by_cases hj : j = i
    · subst hj
      exact holds_congr Iff.rfl fun _ => hother x fun e => hne (by rw [e])
    · refine holds_congr Iff.rfl fun htj => ?_
      have hne12 : (V.ino j).addrs 12 ≠ a := h.ref_ne_of_fresh (x := .addr 12) hfree ha0 htj
      have hnec : (V.ino j).addrs 12 ≠ (V.ino i).addrs 12 := fun e =>
        hj (h.ref_inj (x := .addr 12) (z := .addr 12) ht htj hc e).1
      rw [ref_setBlk (by simpa using hnec), ref_setBlk (by simpa using hne12), ref_setBit]
  · intro b
    by_cases hb : b = a
    · subst hb
      simp [W, Used, ha]
    · simp [W, Used, hb, setBit_bit_of_ne hb]

/-- A block leaves a place in `addrs[]`, other than that of the indirect block, and is freed. -/
theorem Owned.dropAddr (h : Owned sb V) {k : Fin 13} (hk12 : k ≠ 12)
    (ht : (V.ino i).type ≠ 0) (hk : (V.ino i).addrs k = a) (ha : a ≠ 0) :
    Owned sb ((V.setBit a false).setIno i ((V.ino i).setAddr k 0)) := by
  refine h.take (x := (i, .addr k)) (a := a) (holds_eq_some.2 ⟨ht, ha, hk⟩) ?_ ?_ ?_
  · exact holds_eq_none.2 (.inr (by simp [ref]))
  · rintro ⟨j, x⟩ hne
    by_cases hj : j = i
    · subst hj
      refine holds_congr (by simp) fun _ => ?_
      cases x with
      | addr l =>
        have hl : l ≠ k := fun e => hne (by rw [e])
        simp [ref, setAddr_addrs_of_ne hl]
      | leaf l => simp [ref, setAddr_addrs_of_ne hk12.symm]
    · exact holds_congr (by simp [setIno_ino_of_ne hj]) fun _ => by
        rw [ref_setIno_of_ne hj, ref_setBit]
  · intro b
    by_cases hb : b = a
    · subst hb
      simp [Used]
    · simp [Used, hb, setBit_bit_of_ne hb]

/-- The places of all inodes, those in the first `n` entries of the indirect block of inode `i`
given up. -/
def Vol.holdsFrom (V : Vol) (i n : ℕ) : ℕ × Slot → Option ℕ
  | (j, .leaf l) => if j = i ∧ l.val < n then none else V.holds (j, .leaf l)
  | (j, .addr k) => V.holds (j, .addr k)

theorem holdsFrom_zero : V.holdsFrom i 0 = V.holds := by
  funext ⟨j, x⟩
  cases x <;> simp [holdsFrom]

/-- The next entry of the indirect block is given up and its block freed. -/
theorem exact_dropLeaf {n : ℕ} (h : Exact (V.holdsFrom i n) (V.Used sb)) {l : Fin 256}
    (hl : l.val = n) (ht : (V.ino i).type ≠ 0) (hr : V.ref i (.leaf l) = a) (ha : a ≠ 0) :
    Exact ((V.setBit a false).holdsFrom i (n + 1)) ((V.setBit a false).Used sb) := by
  have hhold : V.holdsFrom i n (i, .leaf l) = some a := by
    simp only [holdsFrom, hl, lt_irrefl, and_false, if_false]
    exact holds_eq_some.2 ⟨ht, ha, hr⟩
  refine h.take (x := (i, .leaf l)) (a := a) hhold ?_ ?_ ?_
  · simp [holdsFrom, hl]
  · rintro ⟨j, x⟩ hne
    cases x with
    | addr k => exact holds_congr Iff.rfl fun _ => ref_setBit
    | leaf l' =>
      have hll : j = i → l'.val ≠ n := fun hj e =>
        hne (by rw [hj, Fin.ext (e.trans hl.symm)])
      have hiff : (j = i ∧ l'.val < n + 1) ↔ (j = i ∧ l'.val < n) :=
        and_congr_right fun hj => by have := hll hj; omega
      have hold : (V.setBit a false).holds (j, .leaf l') = V.holds (j, .leaf l') :=
        holds_congr Iff.rfl fun _ => ref_setBit
      show (if _ then _ else (V.setBit a false).holds (j, .leaf l')) = if _ then _ else _
      rw [hold]
      exact if_congr hiff rfl rfl
  · intro b
    by_cases hb : b = a
    · subst hb
      simp [Used]
    · simp [Used, hb, setBit_bit_of_ne hb]

theorem exact_skipLeaf {n : ℕ} (h : Exact (V.holdsFrom i n) (V.Used sb)) {l : Fin 256}
    (hl : l.val = n) (hr : V.ref i (.leaf l) = 0) :
    Exact (V.holdsFrom i (n + 1)) (V.Used sb) := by
  refine h.congr (fun ⟨j, x⟩ => ?_) fun _ => Iff.rfl
  cases x with
  | addr k => rfl
  | leaf l' =>
    by_cases hll : j = i ∧ l'.val = n
    · have : l' = l := Fin.ext (hll.2.trans hl.symm)
      simp [holdsFrom, hll, this, holds_eq_none.2 (.inr hr)]
    · have hiff : (j = i ∧ l'.val < n + 1) ↔ (j = i ∧ l'.val < n) :=
        and_congr_right fun hj => by
          have : l'.val ≠ n := fun e => hll ⟨hj, e⟩
          omega
      simp only [holdsFrom, hiff]

/-- With all its entries given up, the indirect block itself is freed. -/
theorem owned_dropIndirect (h : Exact (V.holdsFrom i 256) (V.Used sb))
    (ht : (V.ino i).type ≠ 0) (hk : (V.ino i).addrs 12 = a) (ha : a ≠ 0) :
    Owned sb ((V.setBit a false).setIno i ((V.ino i).setAddr 12 0)) := by
  refine h.take (x := (i, .addr 12)) (a := a) (holds_eq_some.2 ⟨ht, ha, hk⟩) ?_ ?_ ?_
  · exact holds_eq_none.2 (.inr (by simp [ref]))
  · rintro ⟨j, x⟩ hne
    by_cases hj : j = i
    · subst hj
      cases x with
      | addr l =>
        have hl : l ≠ 12 := fun e => hne (by rw [e])
        exact holds_congr (by simp) fun _ => by simp [ref, setAddr_addrs_of_ne hl]
      | leaf l =>
        rw [holds_eq_none.2 (.inr (ref_leaf_of_zero (by simp)))]
        simp [holdsFrom]
    · have hc : ((V.setBit a false).setIno i ((V.ino i).setAddr 12 0)).holds (j, x) =
          V.holds (j, x) := holds_congr (by simp [setIno_ino_of_ne hj]) fun _ => by
        rw [ref_setIno_of_ne hj, ref_setBit]
      cases x with
      | addr l => exact hc
      | leaf l => simp [holdsFrom, hj, hc]
  · intro b
    by_cases hb : b = a
    · subst hb
      simp [Used]
    · simp [Used, hb, setBit_bit_of_ne hb]

/-- New contents for a block that is no indirect block. -/
theorem Owned.setBlk (h : Owned sb V)
    (hb : ∀ j, (V.ino j).type ≠ 0 → (V.ino j).addrs 12 ≠ b) :
    Owned sb (V.setBlk b y) :=
  h.congr (fun ⟨j, _⟩ => holds_congr Iff.rfl fun htj => ref_setBlk (hb j htj)) fun _ => Iff.rfl

/-- A change of an inode that leaves its places alone. -/
theorem Owned.setIno (h : Owned sb V) (ht : d.type = 0 ↔ (V.ino i).type = 0)
    (hd : d.addrs = (V.ino i).addrs) : Owned sb (V.setIno i d) := by
  refine h.congr (fun ⟨j, x⟩ => ?_) fun _ => Iff.rfl
  refine holds_congr ?_ fun _ => ref_setIno_of_addrs hd
  by_cases hj : j = i
  · subst hj
    simpa using ht
  · rw [setIno_ino_of_ne hj]

/-- An inode without blocks is allocated or freed. -/
theorem Owned.setIno_empty (h : Owned sb V)
    (hi : (V.ino i).type = 0 ∨ ∀ x, V.ref i x = 0) (hd : ∀ k, d.addrs k = 0) :
    Owned sb (V.setIno i d) := by
  refine h.congr (fun ⟨j, x⟩ => ?_) fun _ => Iff.rfl
  by_cases hj : j = i
  · subst hj
    have hx : (V.setIno j d).ref j x = 0 := by
      cases x with
      | addr k => simpa [ref] using hd k
      | leaf l => exact ref_leaf_of_zero (by simpa using hd 12)
    rw [holds_eq_none.2 (.inr hx)]
    refine (holds_eq_none.2 ?_).symm
    rcases hi with hi | hi
    · exact .inl hi
    · exact .inr (hi x)
  · exact holds_congr (by rw [setIno_ino_of_ne hj]) fun _ => ref_setIno_of_ne hj

end Exact

end Xv6
