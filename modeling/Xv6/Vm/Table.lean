import Xv6.Vm.Frames
import Mathlib.Algebra.BigOperators.Intervals

/-!
# What a page table says

A user page table as a function of memory: `dir m root i` is the page of the second level for index
`i`, `pte m root v` the word for page number `v`, 0 where there is no second level, and
`tables m root` the pages that the table itself takes. `Table m root` is what the code keeps of its
words: in the first level they are 0 or a page with `PTE_V` alone, in the second 0 or valid.

`walk` does not change what the table says, whatever pages it adds (`walk_ends`); `mappages` changes
one word (`mappages_ends`). Other tables are not touched, since they have other pages
(`pte_congr`).
-/

namespace Xv6.Vm

open Transfer

/-- The page of the second level for index `i`. -/
def dir (m : ByteMem) (root i : ℕ) : Option ℕ :=
  if (m.ld (root + 4 * i)).testBit vBit then some (pte2pa (m.ld (root + 4 * i))) else none

/-- The word for page number `v`. -/
def pte (m : ByteMem) (root v : ℕ) : ℕ :=
  (dir m root (v / 1024)).elim 0 fun t => m.ld (t + 4 * (v % 1024))

/-- No page, or one. -/
def one (o : Option ℕ) : Multiset ℕ := o.elim 0 fun t => {t}

/-- The pages of the second level for the indices from `a` to `b`. -/
@[irreducible] def dirs (m : ByteMem) (root a b : ℕ) : Multiset ℕ :=
  ∑ i ∈ Finset.Ico a b, one (dir m root i)

/-- The pages of a table. -/
def tables (m : ByteMem) (root : ℕ) : Multiset ℕ := {root} + dirs m root 0 1024

/-- The words of a table are as the code makes them. -/
structure Table (m : ByteMem) (root : ℕ) : Prop where
  word : ∀ i < 1024, m.ld (root + 4 * i) = (dir m root i).elim 0 fun t => t ||| pteV
  leaf : ∀ v < 2 ^ 20, pte m root v = 0 ∨ (pte m root v).testBit vBit = true

/-- The pages of a table are different frames. -/
structure Apart (m : ByteMem) (root : ℕ) : Prop where
  nodup : (tables m root).Nodup
  aligned : ∀ p ∈ tables m root, p % pgsize = 0

variable {m m' : ByteMem} {root i j t p v w : ℕ}

theorem pte_of_none (h : dir m root (v / 1024) = none) : pte m root v = 0 := by
  unfold pte
  rw [h]
  rfl

theorem ld_of_dir (h : dir m root (v / 1024) = some t) : m.ld (t + 4 * (v % 1024)) = pte m root v := by
  unfold pte
  rw [h]
  rfl

theorem mul_div_pgsize (v : ℕ) : pgsize * v / pgsize = v := Nat.mul_div_cancel_left v (by decide)

theorem nextPage_mul (h : v + 1 < 2 ^ 20) : nextPage (pgsize * v) = pgsize * (v + 1) := by
  simp only [nextPage, pgsize]
  omega

@[simp] theorem mem_one {o : Option ℕ} : p ∈ one o ↔ o = some p := by
  cases o with
  | none => simp [one]
  | some t => simp [one, eq_comm]

section Dirs

variable {a b : ℕ}

theorem mem_dirs : p ∈ dirs m root a b ↔ ∃ i, a ≤ i ∧ i < b ∧ dir m root i = some p := by
  rw [dirs, Multiset.mem_sum]
  constructor
  · rintro ⟨i, hi, hp⟩
    exact ⟨i, (Finset.mem_Ico.1 hi).1, (Finset.mem_Ico.1 hi).2, mem_one.1 hp⟩
  · rintro ⟨i, ha, hb, hp⟩
    exact ⟨i, Finset.mem_Ico.2 ⟨ha, hb⟩, mem_one.2 hp⟩

theorem dirs_congr (h : ∀ i, a ≤ i → i < b → dir m' root i = dir m root i) :
    dirs m' root a b = dirs m root a b := by
  rw [dirs, dirs]
  exact Finset.sum_congr rfl fun i hi => by
    rw [h i (Finset.mem_Ico.1 hi).1 (Finset.mem_Ico.1 hi).2]

/-- One index changes. -/
theorem dirs_change (ha : a ≤ i) (hb : i < b) (h : ∀ j < b, j ≠ i → dir m' root j = dir m root j) :
    dirs m' root a b + one (dir m root i) = dirs m root a b + one (dir m' root i) := by
  rw [dirs, dirs]
  exact sum_change (f := fun j => one (dir m root j)) (Finset.mem_Ico.2 ⟨ha, hb⟩) fun j hj hji =>
    congrArg one (h j (Finset.mem_Ico.1 hj).2 hji)

theorem dirs_succ (h : a < b) : dirs m root a b = one (dir m root a) + dirs m root (a + 1) b := by
  rw [dirs, dirs]
  exact Finset.sum_eq_sum_Ico_succ_bot h _

theorem dirs_self : dirs m root a a = 0 := by
  rw [dirs, Finset.Ico_self, Finset.sum_empty]

theorem dirs_inj (hn : (dirs m root a b).Nodup) (hi : a ≤ i ∧ i < b) (hj : a ≤ j ∧ j < b)
    (hd : dir m root i = some t) (hd' : dir m root j = some t) : i = j := by
  by_contra hne
  rw [dirs] at hn
  have hdis := disjoint_of_nodup_sum hn (Finset.mem_Ico.2 hi) (Finset.mem_Ico.2 hj) hne
  exact Multiset.disjoint_left.1 hdis (mem_one.2 hd) (mem_one.2 hd')

end Dirs

theorem mem_tables : p ∈ tables m root ↔ p = root ∨ ∃ i < 1024, dir m root i = some p := by
  rw [tables, Multiset.mem_add, Multiset.mem_singleton, mem_dirs]
  refine or_congr_right (exists_congr fun i => ?_)
  rw [and_iff_right (Nat.zero_le i)]

theorem root_mem : root ∈ tables m root := mem_tables.2 (.inl rfl)

theorem dir_mem (hi : i < 1024) (h : dir m root i = some t) : t ∈ tables m root :=
  mem_tables.2 (.inr ⟨i, hi, h⟩)

namespace Apart

theorem root_aligned (h : Apart m root) : root % pgsize = 0 := h.aligned root root_mem

theorem dir_aligned (h : Apart m root) (hi : i < 1024) (hd : dir m root i = some t) :
    t % pgsize = 0 := h.aligned t (dir_mem hi hd)

theorem dir_ne_root (h : Apart m root) (hi : i < 1024) (hd : dir m root i = some t) : t ≠ root := by
  rintro rfl
  have hdis := (Multiset.nodup_add.1 h.nodup).2.2
  exact Multiset.disjoint_left.1 hdis (Multiset.mem_singleton_self t)
    (mem_dirs.2 ⟨i, Nat.zero_le i, hi, hd⟩)

theorem dir_inj (h : Apart m root) (hi : i < 1024) (hj : j < 1024) (hd : dir m root i = some t)
    (hd' : dir m root j = some t) : i = j :=
  dirs_inj (Multiset.nodup_add.1 h.nodup).2.1 ⟨Nat.zero_le i, hi⟩ ⟨Nat.zero_le j, hj⟩ hd hd'

end Apart

theorem Good.apart {K : Layout} {s : Phys} {R : Multiset ℕ} (hg : Good K s (tables s.mem root + R)) :
    Apart s.mem root :=
  ⟨(Multiset.nodup_add.1 hg.held_nodup).1, fun p hp =>
    (hg.frame p (.inr (Multiset.mem_add.2 (.inl hp)))).aligned⟩

/-! ## Words that stay -/

/-- A word is read from the page that it is in. -/
theorem ld_congr (hp : p % pgsize = 0) (hi : i < 1024) (h : ∀ a, pgrounddown a = p → m' a = m a) :
    m'.ld (p + 4 * i) = m.ld (p + 4 * i) :=
  ByteMem.ld_congr fun k hk => h _ (by
    simp only [pgrounddown, pgsize] at *
    omega)

theorem dir_congr (hr : root % pgsize = 0) (hi : i < 1024)
    (h : ∀ a, pgrounddown a = root → m' a = m a) : dir m' root i = dir m root i := by
  unfold dir
  rw [ld_congr hr hi h]

section Congr

variable (ha : ∀ p ∈ tables m root, p % pgsize = 0)
  (h : ∀ a, pgrounddown a ∈ tables m root → m' a = m a)

include ha h

theorem dir_congr' (hi : i < 1024) : dir m' root i = dir m root i :=
  dir_congr (ha root root_mem) hi fun a hx => h a (hx ▸ root_mem)

theorem pte_congr (hv : v < 2 ^ 20) : pte m' root v = pte m root v := by
  have hi : v / 1024 < 1024 := by omega
  unfold pte
  rw [dir_congr' ha h hi]
  cases hd : dir m root (v / 1024) with
  | none => rfl
  | some t =>
    exact ld_congr (ha t (dir_mem hi hd)) (Nat.mod_lt _ (by decide)) fun a hx =>
      h a (hx ▸ dir_mem hi hd)

theorem tables_congr : tables m' root = tables m root := by
  rw [tables, tables, dirs_congr fun i _ hi => dir_congr' ha h hi]

theorem table_congr (ht : Table m root) : Table m' root := by
  refine ⟨fun i hi => ?_, fun v hv => ?_⟩
  · rw [dir_congr' ha h hi, ld_congr (ha root root_mem) hi fun a hx => h a (hx ▸ root_mem)]
    exact ht.word i hi
  · rw [pte_congr ha h hv]
    exact ht.leaf v hv

end Congr

/-! ## A word of the second level -/

section Leaf

variable (hap : Apart m root) (hv : v < 2 ^ 20) (hd : dir m root (v / 1024) = some t)

include hap hv hd

theorem dir_leaf (hi : i < 1024) : dir (m.st (t + 4 * (v % 1024)) w) root i = dir m root i := by
  have hne := hap.dir_ne_root (by omega) hd
  have hr := hap.root_aligned
  have ht := hap.dir_aligned (by omega) hd
  refine dir_congr hr hi fun a hx => ByteMem.st_of_not_mem ?_
  simp only [pgrounddown, pgsize] at *
  omega

theorem tables_leaf : tables (m.st (t + 4 * (v % 1024)) w) root = tables m root := by
  rw [tables, tables, dirs_congr fun i _ hi => dir_leaf hap hv hd hi]

theorem pte_leaf (hw : w < 2 ^ 32) {u : ℕ} (hu : u < 2 ^ 20) :
    pte (m.st (t + 4 * (v % 1024)) w) root u = if u = v then w else pte m root u := by
  have ht := hap.dir_aligned (by omega) hd
  unfold pte
  rw [dir_leaf hap hv hd (by omega)]
  by_cases huv : u = v
  · rw [if_pos huv, huv, hd]
    exact ByteMem.ld_st hw
  · rw [if_neg huv]
    cases hd' : dir m root (u / 1024) with
    | none => rfl
    | some t' =>
      simp only [Option.elim_some]
      refine ByteMem.ld_st_of_disjoint ?_
      have ht' := hap.dir_aligned (by omega) hd'
      by_cases htt : t' = t
      · subst htt
        have := hap.dir_inj (by omega) (by omega) hd' hd
        omega
      · simp only [pgsize] at ht ht'
        omega

theorem table_leaf (ht : Table m root) (hw : w < 2 ^ 32) (hz : w = 0 ∨ w.testBit vBit = true) :
    Table (m.st (t + 4 * (v % 1024)) w) root := by
  refine ⟨fun i hi => ?_, fun u hu => ?_⟩
  · rw [dir_leaf hap hv hd hi, ← ht.word i hi]
    have hne := hap.dir_ne_root (by omega) hd
    have hr := hap.root_aligned
    have ht := hap.dir_aligned (by omega) hd
    refine ByteMem.ld_st_of_disjoint ?_
    simp only [pgsize] at *
    omega
  · rw [pte_leaf hap hv hd hw hu]
    split
    · exact hz
    · exact ht.leaf u hu

end Leaf

/-! ## A page of the second level -/

theorem valid_word (ht : t % pgsize = 0) :
    (t ||| pteV).testBit vBit = true ∧ pte2pa (t ||| pteV) = t := by
  have he : t ||| pteV = entry t 0 := by rw [entry, pa2pte_of_aligned ht, Nat.or_zero]
  rw [he]
  exact ⟨entry_valid ht (by decide), pte2pa_entry ht (by decide)⟩

section NewDir

variable (hap : Apart m root) (hi : i < 1024) (ht : t % pgsize = 0) (hlt : t < 2 ^ 32)
  (hne : t ∉ tables m root) (hd : dir m root i = none)

/-- Memory with a new page of the second level. -/
def addDir (m : ByteMem) (root i t : ℕ) : ByteMem :=
  (m.fill t pgsize 0).st (root + 4 * i) (pa2pte t ||| pteV)

theorem addDir_of_ne {a : ℕ} (hr : root % pgsize = 0) (hi : i < 1024) (ht : t % pgsize = 0)
    (h₁ : pgrounddown a ≠ root) (h₂ : pgrounddown a ≠ t) : addDir m root i t a = m a := by
  unfold addDir
  rw [ByteMem.st_of_not_mem, ByteMem.fill, if_neg]
  · simp only [pgrounddown, pgsize] at *
    omega
  · simp only [pgrounddown, pgsize] at *
    omega

include hap hi ht hlt hne

theorem dir_addDir (hj : j < 1024) :
    dir (addDir m root i t) root j = if j = i then some t else dir m root j := by
  have hr := hap.root_aligned
  have htr : t ≠ root := fun e => hne (e ▸ root_mem)
  by_cases hji : j = i
  · subst hji
    have hword : (addDir m root j t).ld (root + 4 * j) = t ||| pteV := by
      unfold addDir
      rw [pa2pte_of_aligned ht]
      exact ByteMem.ld_st (Nat.or_lt_two_pow hlt (by decide))
    unfold dir
    rw [hword, if_pos rfl, if_pos (valid_word ht).1, (valid_word ht).2]
  · rw [if_neg hji]
    have hword : (addDir m root i t).ld (root + 4 * j) = m.ld (root + 4 * j) := by
      unfold addDir
      rw [ByteMem.ld_st_of_disjoint (by omega)]
      refine ld_congr hr hj fun a hx => if_neg ?_
      simp only [pgrounddown, pgsize] at *
      omega
    unfold dir
    rw [hword]

include hd

theorem pte_addDir (hv : v < 2 ^ 20) : pte (addDir m root i t) root v = pte m root v := by
  have hr := hap.root_aligned
  have htr : t ≠ root := fun e => hne (e ▸ root_mem)
  unfold pte
  rw [dir_addDir hap hi ht hlt hne (by omega)]
  by_cases hvi : v / 1024 = i
  · -- the words of the new page are 0
    rw [if_pos hvi, hvi, hd]
    simp only [Option.elim_some, Option.elim_none]
    unfold addDir
    rw [ByteMem.ld_st_of_disjoint (by simp only [pgsize] at *; omega)]
    have hz : ∀ k < 4, m.fill t pgsize 0 (t + 4 * (v % 1024) + k) = 0 := fun k hk => if_pos (by
      simp only [pgsize]
      omega)
    unfold ByteMem.ld
    have h0 := hz 0 (by omega)
    rw [Nat.add_zero] at h0
    rw [h0, hz 1 (by omega), hz 2 (by omega), hz 3 (by omega)]
    rfl
  · rw [if_neg hvi]
    cases hd' : dir m root (v / 1024) with
    | none => rfl
    | some t' =>
      have hi' : v / 1024 < 1024 := by omega
      have htt : t' ≠ t := fun e => hne (e ▸ dir_mem hi' hd')
      refine ld_congr (hap.dir_aligned hi' hd') (Nat.mod_lt _ (by decide)) fun a hx => ?_
      exact addDir_of_ne hr hi ht (hx ▸ hap.dir_ne_root hi' hd') (hx ▸ htt)

theorem tables_addDir : tables (addDir m root i t) root = tables m root + {t} := by
  have hsum : dirs (addDir m root i t) root 0 1024 + one (dir m root i) =
      dirs m root 0 1024 + one (dir (addDir m root i t) root i) :=
    dirs_change (Nat.zero_le i) hi fun j hj hji => by
      rw [dir_addDir hap hi ht hlt hne hj, if_neg hji]
  rw [hd, dir_addDir hap hi ht hlt hne hi, if_pos rfl, show one none = 0 from rfl, add_zero] at hsum
  rw [tables, tables, add_assoc, hsum]
  rfl

theorem table_addDir (htab : Table m root) : Table (addDir m root i t) root := by
  have hr := hap.root_aligned
  have htr : t ≠ root := fun e => hne (e ▸ root_mem)
  refine ⟨fun j hj => ?_, fun v hv => ?_⟩
  · rw [dir_addDir hap hi ht hlt hne hj]
    by_cases hji : j = i
    · subst hji
      rw [if_pos rfl]
      unfold addDir
      rw [pa2pte_of_aligned ht]
      exact ByteMem.ld_st (Nat.or_lt_two_pow hlt (by decide))
    · rw [if_neg hji, ← htab.word j hj]
      unfold addDir
      rw [ByteMem.ld_st_of_disjoint (by omega)]
      refine ld_congr hr hj fun a hx => if_neg ?_
      simp only [pgrounddown, pgsize] at *
      omega
  · rw [pte_addDir hap hi ht hlt hne hd hv]
    exact htab.leaf v hv

end NewDir

end Xv6.Vm
