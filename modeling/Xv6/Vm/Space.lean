import Xv6.Vm.Uvm
import Xv6.Vm.Proc
import Mathlib.Algebra.Order.BigOperators.Group.Finset

/-!
# The address space of a process

`Space K m root sz tf` is the invariant of a user page table: the trampoline and the trap frame are
mapped at their places, without `PTE_U`, and all else that is mapped is readable and lies below the
size of the process, which ends below the trap frame. Pages below the size may be missing, when they
are allocated lazily, and one of them may be without `PTE_U`, the guard page below the stack.

`byteAt` is memory as it is seen through a table.
-/

namespace Xv6.Vm

open Transfer

/-- The page number of the trap frame. -/
abbrev tfPage : ℕ := trapframe / pgsize

/-- The page number of the trampoline. -/
abbrev trampPage : ℕ := trampoline / pgsize

/-- A word that maps a page to `p`, for the kernel only. -/
structure KernelPage (w p : ℕ) : Prop where
  valid : w.testBit vBit = true
  user : w.testBit uBit = false
  frame : pte2pa w = p

/-- The invariant of an address space. -/
structure Space (K : Layout) (m : ByteMem) (root sz tf : ℕ) : Prop where
  table : Table m root
  size : sz ≤ trapframe
  tramp : KernelPage (pte m root trampPage) K.trampolineStart
  frame : KernelPage (pte m root tfPage) tf
  only : ∀ v < 2 ^ 20, (pte m root v).testBit vBit = true → v < pgs sz ∨ v = tfPage ∨ v = trampPage
  read : ∀ v < pgs sz, (pte m root v).testBit vBit = true → (pte m root v).testBit rBit = true

/-- The frames of a process besides the pages of its table. -/
def frames (m : ByteMem) (root sz tf : ℕ) : Multiset ℕ := users m root 0 (pgs sz) + {tf}

/-- The byte at a virtual address. -/
def byteAt (m : ByteMem) (root a : ℕ) : Option UInt8 :=
  if (pte m root (a / pgsize)).testBit vBit then
    some (m (pte2pa (pte m root (a / pgsize)) + a % pgsize))
  else none

variable {K : Layout} {s s' : Phys} {R A' : Multiset ℕ} {root sz tf a v : ℕ}

theorem pgs_le_tfPage (h : sz ≤ trapframe) : pgs sz ≤ tfPage := by
  simp only [pgs, pgsize, tfPage, trapframe, trampoline] at *
  omega

theorem pte2pa_aligned (w : ℕ) : pte2pa w % pgsize = 0 := by
  rw [pte2pa_eq]
  exact Nat.mul_mod_left _ _

theorem pgrounddown_pte2pa (w : ℕ) : pgrounddown (pte2pa w + a % pgsize) = pte2pa w :=
  pgrounddown_add (pte2pa_aligned w) (Nat.mod_lt _ (by decide))

namespace Space

theorem pgs_le (h : Space K s.mem root sz tf) : pgs sz ≤ tfPage := pgs_le_tfPage h.size

theorem pgs_le_num (h : Space K s.mem root sz tf) : pgs sz ≤ 16125 := h.pgs_le

/-- Nothing is mapped between the size and the trap frame. -/
theorem unmapped (h : Space K s.mem root sz tf) (h₁ : pgs sz ≤ v) (h₂ : v < tfPage) :
    (pte s.mem root v).testBit vBit = false := by
  cases hv : (pte s.mem root v).testBit vBit with
  | false => rfl
  | true =>
    have h₃ := h.only v (by simp only [tfPage, pgsize, trapframe, trampoline] at h₂; omega) hv
    simp only [tfPage, trampPage, pgsize, trapframe, trampoline] at h₂ h₃
    omega

/-- The frames of mapped pages: one of the process's own, or one of the kernel. -/
theorem frame_cases (h : Space K s.mem root sz tf) (hv : v < 2 ^ 20)
    (hval : (pte s.mem root v).testBit vBit = true) :
    pte2pa (pte s.mem root v) ∈ frames s.mem root sz tf ∨
      pte2pa (pte s.mem root v) = K.trampolineStart := by
  obtain h₁ | rfl | rfl := h.only v hv hval
  · refine .inl (Multiset.mem_add.2 (.inl (mem_users.2 ⟨v, Nat.zero_le _, h₁, ?_⟩)))
    rw [frameOf_valid hval]
    exact Multiset.mem_singleton_self _
  · rw [h.frame.frame]
    exact .inl (Multiset.mem_add.2 (.inr (Multiset.mem_singleton_self _)))
  · exact .inr h.tramp.frame

/-- The bytes of a page that stays mapped where it was, when no page of the process was in hand. -/
theorem byte_kept (h : Space K s.mem root sz tf)
    (hg : Good K s (tables s.mem root + (frames s.mem root sz tf + R)))
    (hm : s.Moves s' (tables s.mem root) A') (ha : a / pgsize < 2 ^ 20)
    (hval : (pte s.mem root (a / pgsize)).testBit vBit = true) :
    s'.mem (pte2pa (pte s.mem root (a / pgsize)) + a % pgsize) =
      s.mem (pte2pa (pte s.mem root (a / pgsize)) + a % pgsize) := by
  obtain hf | hf := h.frame_cases ha hval
  · exact hm.keeps hg.nodup (by rw [pgrounddown_pte2pa]; exact Multiset.mem_add.2 (.inl hf))
  · have hnot : ∀ p, p ∈ s.freelist ∨ p ∈ tables s.mem root → p ≠ K.trampolineStart := by
      rintro p hp rfl
      have h₁ := (hg.frame _ (hp.imp_right fun hx => Multiset.mem_add.2 (.inl hx))).low
      have h₂ := K.tramp_le
      simp only [pgsize] at h₂
      omega
    refine hm.same _ (fun hx => ?_) fun hx => ?_
    · rw [pgrounddown_pte2pa] at hx
      exact hnot _ (.inl hx) hf
    · rw [pgrounddown_pte2pa] at hx
      exact hnot _ (.inr hx) hf

theorem byteAt_kept (h : Space K s.mem root sz tf)
    (hg : Good K s (tables s.mem root + (frames s.mem root sz tf + R)))
    (hm : s.Moves s' (tables s.mem root) A') (ha : a / pgsize < 2 ^ 20)
    (hpte : pte s'.mem root (a / pgsize) = pte s.mem root (a / pgsize)) :
    byteAt s'.mem root a = byteAt s.mem root a := by
  unfold byteAt
  rw [hpte]
  split
  · next hval => rw [h.byte_kept hg hm ha hval]
  · rfl

/-- The size alone may grow. -/
theorem extend {sz' : ℕ} (h : Space K s.mem root sz tf) (hle : sz ≤ sz') (hmax : sz' ≤ trapframe) :
    Space K s.mem root sz' tf ∧ frames s.mem root sz' tf = frames s.mem root sz tf := by
  have hmono := pgs_mono hle
  have hpg := pgs_le_tfPage hmax
  have htf : tfPage = 16125 := by decide
  refine ⟨⟨h.table, hmax, h.tramp, h.frame, fun v hv hval => ?_, fun v hv hval => ?_⟩, ?_⟩
  · exact (h.only v hv hval).imp_left fun hx => by omega
  · refine h.read v ?_ hval
    by_contra hno
    rw [h.unmapped (by omega) (by omega)] at hval
    cases hval
  · unfold frames
    rw [users_split (Nat.zero_le _) hmono, users_zero (a := pgs sz), add_zero]
    intro v h₁ h₂
    refine (h.table.leaf v (by omega)).resolve_right ?_
    rw [h.unmapped h₁ (by omega)]
    decide

/-- What the words of the table say does not depend on other memory. -/
theorem congr {m m' : ByteMem} (h : Space K m root sz tf)
    (hal : ∀ p ∈ tables m root, p % pgsize = 0)
    (hq : ∀ a, pgrounddown a ∈ tables m root → m' a = m a) : Space K m' root sz tf := by
  have hpg := pgs_le_tfPage h.size
  have htf : tfPage = 16125 := by decide
  refine ⟨table_congr hal hq h.table, h.size, ?_, ?_, fun v hv hval => ?_, fun v hv hval => ?_⟩
  · rw [pte_congr hal hq (by decide)]
    exact h.tramp
  · rw [pte_congr hal hq (by decide)]
    exact h.frame
  · rw [pte_congr hal hq hv] at hval
    exact h.only v hv hval
  · rw [pte_congr hal hq (by omega)] at hval ⊢
    exact h.read v hv hval

theorem frames_congr {m m' : ByteMem} (h : Space K m root sz tf)
    (hal : ∀ p ∈ tables m root, p % pgsize = 0)
    (hq : ∀ a, pgrounddown a ∈ tables m root → m' a = m a) :
    frames m' root sz tf = frames m root sz tf := by
  have hpg := pgs_le_tfPage h.size
  have htf : tfPage = 16125 := by decide
  unfold frames
  rw [users_congr fun u _ hu => pte_congr hal hq (by omega)]

end Space

section Built

variable {sz' : ℕ} {img : ℕ → Option Image} (h : Space K s.mem root sz tf)
  (hb : Built K root (pgs sz) (pgs sz') img s s') (hle : sz ≤ sz') (hmax : sz' ≤ trapframe)

include h hb hle hmax

/-- Pages are added at the end. -/
theorem Space.built (hperm : ∀ u g, img u = some g → g.perm < pgsize)
    (hr : ∀ u < pgs sz', ∀ g, img u = some g → (g.perm ||| pteV).testBit rBit = true) :
    Space K s'.mem root sz' tf := by
  have hmono := pgs_mono hle
  have hpg := pgs_le_tfPage hmax
  have htf : tfPage = 16125 := by decide
  have htr : trampPage = 16126 := by decide
  refine ⟨hb.table, hmax, ?_, ?_, fun v hv hval => ?_, fun v hv hval => ?_⟩
  · rw [hb.words _ (by decide) (by omega)]
    exact h.tramp
  · rw [hb.words _ (by decide) (by omega)]
    exact h.frame
  · by_cases hlt : v < pgs sz'
    · exact .inl hlt
    · rw [hb.words v hv (by omega)] at hval
      exact (h.only v hv hval).imp_left fun hx => by omega
  · by_cases hlt : v < pgs sz
    · rw [hb.words v (by omega) (.inl hlt)] at hval ⊢
      exact h.read v hlt hval
    · cases hi : img v with
      | none =>
        rw [hb.gap v (by omega) hv hi, h.unmapped (by omega) (by omega)] at hval
        cases hval
      | some g =>
        obtain ⟨p, hp, hpte, -⟩ := hb.new v (by omega) hv g hi
        rw [hpte, entry_testBit hp.aligned (hperm v g hi) (by decide)]
        exact hr v hv g hi

omit h in
theorem frames_built : frames s'.mem root sz' tf =
    users s'.mem root (pgs sz) (pgs sz') + frames s.mem root sz tf := by
  have hmono := pgs_mono hle
  have hpg := pgs_le_tfPage hmax
  have htf : tfPage = 16125 := by decide
  unfold frames
  rw [users_split (Nat.zero_le _) hmono,
    users_congr fun u _ hu => hb.words u (by omega) (.inl hu)]
  abel

omit h in
theorem Good.built (hg : Good K s (tables s.mem root + (frames s.mem root sz tf + R))) :
    Good K s' (tables s'.mem root + (frames s'.mem root sz' tf + R)) := by
  rw [frames_built hb hle hmax]
  exact (hg.moves hb.moves).cast (by abel)

end Built

/-- What is seen through a table depends on its pages and on those it maps. -/
theorem Space.byteAt_congr {m m' : ByteMem} (h : Space K m root sz tf)
    (hal : ∀ p ∈ tables m root, p % pgsize = 0)
    (hq : ∀ x, pgrounddown x ∈ tables m root → m' x = m x)
    (hf : ∀ x, pgrounddown x ∈ frames m root sz tf ∨ pgrounddown x = K.trampolineStart → m' x = m x)
    (ha : a / pgsize < 2 ^ 20) : byteAt m' root a = byteAt m root a := by
  unfold byteAt
  rw [pte_congr hal hq ha]
  split
  · next hval =>
    rw [hf]
    rw [pgrounddown_pte2pa]
    exact h.frame_cases (s := ⟨m, [], []⟩) ha hval
  · rfl

/-- An address space is as before when its pages are not in hand. -/
theorem Space.moved {A : Multiset ℕ} (h : Space K s.mem root sz tf)
    (hg : Good K s (A + (tables s.mem root + (frames s.mem root sz tf + R)))) (hm : s.Moves s' A A') :
    Space K s'.mem root sz tf ∧ tables s'.mem root = tables s.mem root ∧
      frames s'.mem root sz tf = frames s.mem root sz tf ∧
      (∀ v < 2 ^ 20, pte s'.mem root v = pte s.mem root v) ∧
      ∀ a < 2 ^ 32, byteAt s'.mem root a = byteAt s.mem root a := by
  have hkeep : ∀ x, pgrounddown x ∈ tables s.mem root + (frames s.mem root sz tf + R) →
      s'.mem x = s.mem x := fun x hx => hm.keeps hg.nodup hx
  have hq : ∀ x, pgrounddown x ∈ tables s.mem root → s'.mem x = s.mem x := fun x hx =>
    hkeep x (Multiset.mem_add.2 (.inl hx))
  have hal : ∀ p ∈ tables s.mem root, p % pgsize = 0 := fun p hp => (hg.frame p (.inr
    (Multiset.mem_add.2 (.inr (Multiset.mem_add.2 (.inl hp)))))).aligned
  refine ⟨h.congr hal hq, tables_congr hal hq, h.frames_congr hal hq,
    fun v hv => pte_congr hal hq hv, fun a ha => h.byteAt_congr hal hq (fun x hx => ?_)
    (by simp only [pgsize]; omega)⟩
  obtain hx | hx := hx
  · exact hkeep x (Multiset.mem_add.2 (.inr (Multiset.mem_add.2 (.inl hx))))
  · have hlow : ∀ p, p ∈ s.freelist ∨ p ∈ A → p ≠ pgrounddown x := fun p hp e => by
      have h₁ := (hg.frame p (hp.imp_right fun h => Multiset.mem_add.2 (.inl h))).low
      have h₂ := K.tramp_le
      simp only [pgsize] at h₂
      omega
    exact hm.same x (fun h => hlow _ (.inl h) rfl) fun h => hlow _ (.inr h) rfl

/-- A table that has grown is that of the same address space. -/
theorem Space.grown (h : Space K s.mem root sz tf) (hgr : Grown root s s') :
    Space K s'.mem root sz tf ∧ frames s'.mem root sz tf = frames s.mem root sz tf := by
  have hpg := h.pgs_le_num
  refine ⟨⟨hgr.table, h.size, ?_, ?_, fun v hv hval => ?_, fun v hv hval => ?_⟩, ?_⟩
  · rw [hgr.words _ (by decide)]
    exact h.tramp
  · rw [hgr.words _ (by decide)]
    exact h.frame
  · rw [hgr.words v hv] at hval
    exact h.only v hv hval
  · rw [hgr.words v (by omega)] at hval ⊢
    exact h.read v hv hval
  · unfold frames
    rw [users_congr fun u _ hu => hgr.words u (by omega)]

/-- The pages of a table that has grown. -/
theorem Grown.tables_le (h : Grown root s s') : tables s.mem root ≤ tables s'.mem root := by
  unfold tables
  refine add_le_add_right ?_ _
  rw [dirs, dirs]
  refine Finset.sum_le_sum fun i hi => ?_
  cases hd : dir s.mem root i with
  | none => exact Multiset.zero_le _
  | some t => rw [h.kept i (Finset.mem_Ico.1 hi).2 t hd]

end Xv6.Vm
