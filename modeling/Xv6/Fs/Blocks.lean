import Xv6.Fs.Volume

/-!
# What the block allocator and the inode table do to the volume

One rule for each call of the interface and for each primitive of `fs.c`, in terms of the tables
and the volume of a state, with the blocks that are logged (`Logs`). Above this module no proof
looks at the bytes of an inode block or of the free map.
-/

namespace Xv6

/-- The blocks logged between two states: data blocks of `D`, blocks of the free map with bits of
`B`, and inode blocks with inodes of `I`. -/
structure Logs (sb : Superblock) (s s' : FsSt) (D B I : Finset ℕ) : Prop where
  wrote : ∀ b ∈ s'.wrote, b ∈ s.wrote ∨ b ∈ D ∨ (∃ a ∈ B, b = bblock a sb) ∨
    ∃ i ∈ I, b = iblock i sb
  bits : ∀ b ∈ B, b < sb.size
  spent : s'.spent = s.spent
  ops : s'.outstanding = s.outstanding

namespace Logs

variable {sb : Superblock} {s s' s'' : FsSt} {D D' B B' I I' : Finset ℕ}

theorem refl (sb : Superblock) (s : FsSt) : Logs sb s s ∅ ∅ ∅ :=
  ⟨fun _ hb => .inl hb, fun _ hb => absurd hb (Finset.notMem_empty _), rfl, rfl⟩

theorem trans (h : Logs sb s s' D B I) (h' : Logs sb s' s'' D' B' I') :
    Logs sb s s'' (D ∪ D') (B ∪ B') (I ∪ I') := by
  refine ⟨fun b hb => ?_, fun b hb => ?_, h'.spent.trans h.spent, h'.ops.trans h.ops⟩
  · rcases h'.wrote b hb with hb | hb | ⟨a, ha, rfl⟩ | ⟨i, hi, rfl⟩
    · rcases h.wrote b hb with hb | hb | ⟨a, ha, rfl⟩ | ⟨i, hi, rfl⟩
      · exact .inl hb
      · exact .inr (.inl (Finset.mem_union_left _ hb))
      · exact .inr (.inr (.inl ⟨a, Finset.mem_union_left _ ha, rfl⟩))
      · exact .inr (.inr (.inr ⟨i, Finset.mem_union_left _ hi, rfl⟩))
    · exact .inr (.inl (Finset.mem_union_right _ hb))
    · exact .inr (.inr (.inl ⟨a, Finset.mem_union_right _ ha, rfl⟩))
    · exact .inr (.inr (.inr ⟨i, Finset.mem_union_right _ hi, rfl⟩))
  · rcases Finset.mem_union.1 hb with hb | hb
    · exact h.bits b hb
    · exact h'.bits b hb

theorem mono (h : Logs sb s s' D B I) (hD : D ⊆ D') (hB : B ⊆ B') (hI : I ⊆ I')
    (hb : ∀ b ∈ B', b < sb.size) : Logs sb s s' D' B' I' := by
  refine ⟨fun b hb => ?_, hb, h.spent, h.ops⟩
  rcases h.wrote b hb with hb | hb | ⟨a, ha, rfl⟩ | ⟨i, hi, rfl⟩
  · exact .inl hb
  · exact .inr (.inl (hD hb))
  · exact .inr (.inr (.inl ⟨a, hB ha, rfl⟩))
  · exact .inr (.inr (.inr ⟨i, hI hi, rfl⟩))

/-- Nothing is logged. -/
theorem of_eq (sb : Superblock) (hw : s'.wrote = s.wrote) (hs : s'.spent = s.spent)
    (ho : s'.outstanding = s.outstanding) : Logs sb s s' ∅ ∅ ∅ :=
  ⟨fun _ hb => .inl (hw ▸ hb), fun _ hb => absurd hb (Finset.notMem_empty _), hs, ho⟩

/-- No further block is logged. -/
theorem wrote_card (h : Logs sb s s' ∅ ∅ ∅) : s'.wrote.card ≤ s.wrote.card := by
  refine Finset.card_le_card fun b hb => ?_
  rcases h.wrote b hb with hb | hb | ⟨a, ha, -⟩ | ⟨i, hi, -⟩
  · exact hb
  · exact absurd hb (Finset.notMem_empty b)
  · exact absurd ha (Finset.notMem_empty a)
  · exact absurd hi (Finset.notMem_empty i)

/-- The operation is still in progress. -/
theorem still (h : Logs sb s s' D B I) (hop : 0 < s.outstanding) : 0 < s'.outstanding := by
  rw [h.ops]
  exact hop

theorem data (sb : Superblock) (s : FsSt) (b : ℕ) (x : Block) :
    Logs sb s (s.write b x) {b} ∅ ∅ := by
  refine ⟨fun c hc => ?_, fun _ hb => absurd hb (Finset.notMem_empty _), rfl, rfl⟩
  rcases Finset.mem_insert.1 hc with rfl | hc
  · exact .inr (.inl (Finset.mem_singleton_self _))
  · exact .inl hc

theorem bit {b : ℕ} (hb : b < sb.size) (s : FsSt) (x : Block) :
    Logs sb s (s.write (bblock b sb) x) ∅ {b} ∅ := by
  refine ⟨fun c hc => ?_, fun c hc => by rwa [Finset.mem_singleton.1 hc], rfl, rfl⟩
  rcases Finset.mem_insert.1 hc with rfl | hc
  · exact .inr (.inr (.inl ⟨b, Finset.mem_singleton_self _, rfl⟩))
  · exact .inl hc

theorem inode (sb : Superblock) (s : FsSt) (i : ℕ) (x : Block) :
    Logs sb s (s.write (iblock i sb) x) ∅ ∅ {i} := by
  refine ⟨fun c hc => ?_, fun _ hb => absurd hb (Finset.notMem_empty _), rfl, rfl⟩
  rcases Finset.mem_insert.1 hc with rfl | hc
  · exact .inr (.inr (.inr ⟨i, Finset.mem_singleton_self _, rfl⟩))
  · exact .inl hc

theorem trans_left (h : Logs sb s s' ∅ ∅ ∅) (h' : Logs sb s' s'' D B I) : Logs sb s s'' D B I := by
  simpa using h.trans h'

theorem trans_right (h : Logs sb s s' D B I) (h' : Logs sb s' s'' ∅ ∅ ∅) : Logs sb s s'' D B I := by
  simpa using h.trans h'

end Logs

namespace Fs

open Conc Eff

variable {α : Type} {t : Tid} {err : String → Prop} {Q : α → FsSt → Prop} {s : FsSt} {m : Mem}
  {V : Vol}

/-! ## The interface -/

theorem gets_wp {f : Mem → α} (h : Shows s m V) (hQ : Q (f m) s) :
    wp (store t) err (gets f) Q s := by
  refine wp_call ?_
  rintro o rfl
  rw [h.mem]
  show Q (f m) (s.withMem m)
  rw [← h.mem]
  rw [← h.mem] at hQ
  exact hQ

theorem mem_wp {f : Action Mem α} (h : Shows s m V)
    (hok : ∀ a m', f t m = .ok a m' → m'.sb = m.sb ∧
      ∀ s', Shows s' m' V → Logs m.sb s s' ∅ ∅ ∅ → Q a s')
    (hpanic : ∀ msg, f t m = .panic msg → err msg) : wp (store t) err (mem f) Q s := by
  refine wp_call ?_
  rintro o rfl
  rw [h.mem]
  cases hf : f t m with
  | ok a m' =>
    obtain ⟨hsb, hQ⟩ := hok a m' hf
    exact hQ _ (h.withMem hsb) (.of_eq _ rfl rfl rfl)
  | block => trivial
  | panic msg => exact hpanic msg hf

theorem modify_wp {f : Mem → Mem} {Q : Unit → FsSt → Prop} (h : Shows s m V)
    (hsb : (f m).sb = m.sb) (hQ : ∀ s', Shows s' (f m) V → Logs m.sb s s' ∅ ∅ ∅ → Q () s') :
    wp (store t) err (modify f) Q s := by
  refine mem_wp h (fun a m' he => ?_) fun msg he => by cases he
  obtain ⟨rfl, rfl⟩ := Outcome.ok.inj he
  exact ⟨hsb, hQ⟩

theorem panic_wp {msg : String} (h : err msg) : wp (store t) err (panic msg) Q s := by
  refine wp_call ?_
  rintro o rfl
  exact h

theorem brelse_wp {b : ℕ} {Q : Unit → FsSt → Prop} (hQ : Q () s) :
    wp (store t) err (brelse b) Q s := by
  refine wp_call ?_
  rintro o rfl
  exact hQ

theorem beginOp_wp {Q : Unit → FsSt → Prop} (hQ : Q () s.opened) :
    wp (store t) err beginOp Q s := by
  refine wp_call ?_
  rintro o rfl
  exact hQ

theorem endOp_wp {Q : Unit → FsSt → Prop} (hQ : Q () s.closed) :
    wp (store t) err endOp Q s := by
  refine wp_call ?_
  rintro o rfl
  exact hQ

theorem logWrite_wp {b : ℕ} {x : Block} {Q : Unit → FsSt → Prop} (hop : 0 < s.outstanding)
    (hQ : Q () (s.write b x)) : wp (store t) err (logWrite b x) Q s := by
  refine wp_call ?_
  rintro o rfl
  rw [FsSt.logWrite, if_neg (by omega)]
  exact hQ

theorem bread_wp {b : ℕ} {Q : Block → FsSt → Prop}
    (hQ : ∀ x, x = s.cached b ∨ x = s.logged b → Q x s) : wp (store t) err (bread b) Q s := by
  refine wp_call ?_
  rintro o ⟨x, hx, rfl⟩
  exact hQ x hx

theorem bread_wp_of_eq {b : ℕ} {Q : Block → FsSt → Prop} (hb : s.cached b = s.logged b)
    (hQ : Q (s.logged b) s) : wp (store t) err (bread b) Q s := by
  refine bread_wp fun x hx => ?_
  obtain rfl : x = s.logged b := by
    rcases hx with rfl | rfl
    · exact hb
    · rfl
  exact hQ

section Data

variable {b : ℕ}

theorem logWrite_wp_data {x : Block} {Q : Unit → FsSt → Prop} (h : Shows s m V)
    (hop : 0 < s.outstanding) (hb : IsData m.sb b)
    (hQ : ∀ s', Shows s' m (V.setBlk b x) → Logs m.sb s s' {b} ∅ ∅ → Q () s') :
    wp (store t) err (logWrite b x) Q s :=
  logWrite_wp hop (hQ _ (h.write_data hb x) (.data _ s b x))

theorem scribble_wp_data {x : Block} {Q : Unit → FsSt → Prop} (h : Shows s m V)
    (hb : IsData m.sb b) (hQ : ∀ s', Shows s' m (V.setLoose b (x ≠ V.blk b)) →
      Logs m.sb s s' ∅ ∅ ∅ → Q () s') : wp (store t) err (scribble b x) Q s := by
  refine wp_call ?_
  rintro o rfl
  exact hQ _ (h.spoil hb x) (.of_eq _ rfl rfl rfl)

end Data

/-! ## The block allocator -/

section Allocator

variable {b : ℕ}

theorem bzero_wp {Q : Unit → FsSt → Prop} (h : Shows s m V) (hop : 0 < s.outstanding)
    (hb : IsData m.sb b)
    (hQ : ∀ s', Shows s' m (V.setBlk b (.zero _)) → Logs m.sb s s' {b} ∅ ∅ → Q () s') :
    wp (store t) err (bzero b) Q s := by
  refine wp_bind (bread_wp fun x _ => ?_)
  refine wp_bind (logWrite_wp_data h hop hb fun s' h' hlog => ?_)
  exact brelse_wp (hQ s' h' hlog)

theorem bblock_add (sb : Superblock) {bi : ℕ} (hb : b % bpb = 0) (hbi : bi < bpb) :
    bblock (b + bi) sb = bblock b sb ∧ (b + bi) % bpb = bi := by
  simp only [bblock, bpb] at *
  omega

/-- `balloc` gives a data block that was free, marked and zeroed, or `0`. The boot block, the
superblock, the log and the blocks of inodes and of the free map are marked (`hmeta`). -/
theorem ballocLoop_wp {k : ℕ} {Q : ℕ → FsSt → Prop} (h : Shows s m V) (hop : 0 < s.outstanding)
    (hmeta : ∀ b < dataStart m.sb, V.bit b = true) (hmod : b % bpb = 0)
    (hk : k ≠ 0 → b + (k - 1) * bpb < m.sb.size) (hend : m.sb.size ≤ b + k * bpb)
    (hset : ∀ c < b, c < m.sb.size → V.bit c = true) (hnone : V.Full m.sb → Q 0 s)
    (hsome : ∀ a s', IsData m.sb a → V.bit a = false →
      Shows s' m (V.alloc a) → Logs m.sb s s' {a} {a} ∅ → Q a s') :
    wp (store t) err (ballocLoop m.sb k b) Q s := by
  induction k generalizing b with
  | zero => exact wp_pure (hnone fun c hc => hset c (by omega) hc)
  | succ k ih =>
    have hlast : b + k * bpb < m.sb.size := hk (Nat.succ_ne_zero k)
    have hb : b < m.sb.size := by
      simp only [bpb] at hlast
      omega
    refine wp_bind (bread_wp_of_eq (h.tight _ (h.layout.bblock_lt hb)) ?_)
    cases hf : (List.range' 0 (min bpb (m.sb.size - b))).find? fun bi =>
        !getBit (s.logged (bblock b m.sb)) bi with
    | some bi =>
      have hfree := List.find?_some hf
      have hmem : bi < bpb ∧ b + bi < m.sb.size := by
        have := List.mem_of_find?_eq_some hf
        simp only [List.mem_range'_1] at this
        omega
      obtain ⟨hbb, hbm⟩ := bblock_add m.sb hmod hmem.1
      have hclear : V.bit (b + bi) = false := by
        rw [← h.bit_eq hmem.2, hbb, hbm]
        simpa using hfree
      have hdata : IsData m.sb (b + bi) := by
        refine ⟨not_lt.1 fun hlt => ?_, hmem.2⟩
        rw [hmeta _ hlt] at hclear
        cases hclear
      have h' : Shows (s.write (bblock b m.sb) (setBit (s.logged (bblock b m.sb)) bi)) m
          (V.setBit (b + bi) true) := by
        rw [← hbb]
        refine h.write_bit hmem.2 fun c hc => ?_
        rw [getBit_setBit _ hc, hbm]
        by_cases hcb : c = bi <;> simp [hcb]
      refine wp_bind (logWrite_wp hop ?_)
      refine wp_bind (brelse_wp ?_)
      have hlog : Logs m.sb s (s.write (bblock b m.sb)
          (setBit (s.logged (bblock b m.sb)) bi)) ∅ {b + bi} ∅ := by
        rw [← hbb]
        exact .bit hmem.2 s _
      refine wp_bind (bzero_wp h' hop hdata fun s' hs' hz => ?_)
      exact wp_pure (hsome _ s' hdata hclear hs' (by simpa using hlog.trans hz))
    | none =>
      refine wp_bind (brelse_wp ?_)
      refine ih (by simp only [bpb] at hmod ⊢; omega) (fun hk0 => ?_)
        (by simp only [bpb] at hend ⊢; omega) fun c hc hcs => ?_
      swap
      · by_cases hcb : c < b
        · exact hset c hcb hcs
        · obtain ⟨hbb, hbm⟩ := bblock_add m.sb hmod (show c - b < bpb by omega)
          have hbit := List.find?_eq_none.1 hf (c - b) (by simp only [List.mem_range'_1]; omega)
          rw [show b + (c - b) = c by omega] at hbb hbm
          rw [← h.bit_eq hcs, hbb, hbm]
          simpa using hbit
      have : bpb + (k - 1) * bpb = k * bpb := by
        obtain ⟨j, rfl⟩ := Nat.exists_eq_succ_of_ne_zero hk0
        simp only [Nat.succ_sub_one, bpb]
        omega
      omega

theorem balloc_wp {Q : ℕ → FsSt → Prop} (h : Shows s m V) (hop : 0 < s.outstanding)
    (hmeta : ∀ b < dataStart m.sb, V.bit b = true) (hnone : V.Full m.sb → Q 0 s)
    (hsome : ∀ a s', IsData m.sb a → V.bit a = false →
      Shows s' m (V.alloc a) → Logs m.sb s s' {a} {a} ∅ → Q a s') :
    wp (store t) err balloc Q s := by
  refine wp_bind (gets_wp h ?_)
  refine ballocLoop_wp h hop hmeta rfl (fun hk => ?_) ?_ (fun c hc => absurd hc (Nat.not_lt_zero c))
    hnone hsome
  · simp only [bpb] at hk ⊢
    omega
  · simp only [bpb]
    omega

/-- `bfree` of a block that is in use. -/
theorem bfree_wp {Q : Unit → FsSt → Prop} (h : Shows s m V) (hop : 0 < s.outstanding)
    (hb : IsData m.sb b) (hbit : V.bit b = true)
    (hQ : ∀ s', Shows s' m (V.setBit b false) → Logs m.sb s s' ∅ {b} ∅ → Q () s') :
    wp (store t) err (bfree b) Q s := by
  refine wp_bind (gets_wp h ?_)
  refine wp_bind (bread_wp_of_eq (h.tight _ (h.layout.bblock_lt hb.2)) ?_)
  rw [h.bit_eq hb.2, hbit, if_neg (by decide)]
  refine wp_bind (logWrite_wp hop ?_)
  refine brelse_wp (hQ _ (h.write_bit hb.2 fun c hc => ?_) (.bit hb.2 s _))
  rw [getBit_clearBit _ hc]
  by_cases hcb : c = b % bpb <;> simp [hcb]

end Allocator

/-! ## Inodes -/

section Inodes

variable {ip : InodeId}

theorem dinode_wp {Q : Dinode → FsSt → Prop} (h : Shows s m V) (hQ : Q (m.itable ip).d s) :
    wp (store t) err (dinode ip) Q s := gets_wp h hQ

theorem setDinode_wp {f : Dinode → Dinode} {Q : Unit → FsSt → Prop} (h : Shows s m V)
    (hQ : ∀ s', Shows s' (m.setInode ip { m.itable ip with d := f (m.itable ip).d }) V →
      Logs m.sb s s' ∅ ∅ ∅ → Q () s') : wp (store t) err (setDinode ip f) Q s :=
  modify_wp h rfl hQ

/-- `iupdate` writes the copy in memory to the disk. -/
theorem iupdate_wp {Q : Unit → FsSt → Prop} (h : Shows s m V) (hop : 0 < s.outstanding)
    (hi : (m.itable ip).inum < m.sb.ninodes) (hd : (m.itable ip).d.Fits)
    (hQ : ∀ s', Shows s' m (V.setIno (m.itable ip).inum (m.itable ip).d) →
      Logs m.sb s s' ∅ ∅ {(m.itable ip).inum} → Q () s') :
    wp (store t) err (iupdate ip) Q s := by
  refine wp_bind (gets_wp h ?_)
  refine wp_bind (gets_wp h ?_)
  refine wp_bind (bread_wp_of_eq (h.tight _ (h.layout.iblock_lt_dataStart hi)) ?_)
  refine wp_bind (logWrite_wp hop ?_)
  exact brelse_wp (hQ _ (h.write_ino hi hd) (.inode _ s _ _))

end Inodes

end Fs

end Xv6
