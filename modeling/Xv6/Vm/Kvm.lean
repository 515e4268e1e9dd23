import Xv6.Vm.Create

/-!
# The address space of the kernel

`kvmmake` with `kvmmap` and `proc_mapstacks`. With 81 free pages, one for the table, 16 for its second
level and 64 for the stacks, it does not stop, and the table has exactly the regions that the kernel
uses (`kvmmake_map`). The lowest of the kernel stacks is at `PHYSTOP`, so that the page below it is
the last one of physical memory: that stack has no guard page, and each of the others has one.
-/

namespace Xv6.Vm

open Transfer

/-! ## The code -/

/-- The start of the devices. -/
abbrev mmio : ℕ := 0x03F00000

/-- The page of the stack that the kernel boots on. -/
abbrev bootStack : ℕ := 0x03EFF000

/-- `KSTACK`. -/
def kstack (p : ℕ) : ℕ := trampoline - (p + 1) * 2 * pgsize

/-- `kvmmap`. -/
def kvmmap (kpgtbl va pa sz perm : ℕ) : PhysM Unit := do
  if ← mappages kpgtbl va sz pa perm then return else panic "kvmmap"

/-- The loop of `proc_mapstacks` from process `p` on, with `n` processes left. -/
def mapstacksLoop (kpgtbl : ℕ) : ℕ → ℕ → PhysM Unit
  | 0, _ => return
  | n + 1, p => do
    match ← kalloc with
    | none => panic "kalloc"
    | some pa => do
      kvmmap kpgtbl (kstack p) pa pgsize (pteR ||| pteW)
      mapstacksLoop kpgtbl n (p + 1)

/-- `proc_mapstacks`. -/
def procMapstacks (kpgtbl : ℕ) : PhysM Unit := mapstacksLoop kpgtbl nproc 0

/-- `kvmmake`. Whether there is a page for the table is not checked. -/
def kvmmake (K : Layout) : PhysM ℕ := do
  let kpgtbl := (← kalloc).getD 0
  zeroPage kpgtbl
  kvmmap kpgtbl mmio mmio 0x100000 (pteR ||| pteW)
  kvmmap kpgtbl 0 0 phystop (pteR ||| pteW ||| pteX)
  if phystop < mmio then
    kvmmap kpgtbl bootStack bootStack pgsize (pteR ||| pteW)
  kvmmap kpgtbl trampoline K.trampolineStart pgsize (pteR ||| pteX)
  procMapstacks kpgtbl
  return kpgtbl

/-! ## Pages for the second level -/

variable {K : Layout} {E : Halt → Prop} {s₀ s s' : Phys} {R : Multiset ℕ}
  {root perm c v n pa : ℕ} {f : ℕ → ℕ}

/-- The indices below 16 without a page of the second level. -/
def missing (m : ByteMem) (root : ℕ) : Finset ℕ := (Finset.range 16).filter fun i => dir m root i = none

theorem missing_card_le (m : ByteMem) (root : ℕ) : (missing m root).card ≤ 16 :=
  (Finset.card_filter_le _ _).trans (Finset.card_range 16).le

/-- What `walk` takes is not missing any more. -/
theorem missing_mapped {w : ℕ} (hv : v < 16 * 1024) (h : Mapped root v w s s') :
    need s.mem root v + (missing s'.mem root).card = (missing s.mem root).card := by
  have hi : v / 1024 < 16 := by omega
  have herase : missing s'.mem root = (missing s.mem root).erase (v / 1024) := by
    ext i
    simp only [missing, Finset.mem_erase, Finset.mem_filter, Finset.mem_range]
    by_cases hvi : i = v / 1024
    · rw [hvi]
      simp [h.has]
    · by_cases hlt : i < 16
      · simp [hlt, hvi, h.others i (by omega) hvi]
      · simp [hlt]
  rw [herase, need]
  by_cases hd : dir s.mem root (v / 1024) = none
  · have hmem : v / 1024 ∈ missing s.mem root :=
      Finset.mem_filter.2 ⟨Finset.mem_range.2 hi, hd⟩
    rw [if_pos hd, Nat.add_comm, Finset.card_erase_add_one hmem]
  · have hmem : v / 1024 ∉ missing s.mem root := fun hx => hd (Finset.mem_filter.1 hx).2
    rw [if_neg hd, Finset.erase_eq_of_notMem hmem, Nat.zero_add]

/-! ## A table that is being filled -/

/-- A table with the words `f`, in hand with the pages of `R`; there are pages for its second level and
`c` more, all of them free in `s₀`. -/
structure Filling (K : Layout) (s₀ : Phys) (root : ℕ) (f : ℕ → ℕ) (c : ℕ) (R : Multiset ℕ) (s : Phys) :
    Prop where
  good : Good K s (tables s.mem root + R)
  table : Table s.mem root
  words : ∀ u < 2 ^ 20, pte s.mem root u = f u
  avail : Avail s ((missing s.mem root).card + c)
  free : s.freelist ⊆ s₀.freelist

theorem Filling.mapped {w : ℕ} (h : Filling K s₀ root f c R s) (hv : v < 16 * 1024)
    (htook : Took s s' (need s.mem root v)) (hm : Mapped root v w s s') :
    Filling K s₀ root (Function.update f v w) c R s' := by
  refine ⟨h.good.moves hm.moves, hm.table, fun u hu => ?_, ?_, fun p hp => h.free ?_⟩
  · rw [hm.words u hu, Function.update_apply, h.words u hu]
  · have hav := h.avail
    rw [← missing_mapped hv hm, Nat.add_assoc] at hav
    exact (htook.avail_add.1 hav).2
  · rw [htook.freelist] at hp
    exact List.mem_of_mem_drop hp

/-- The words `f` with `n` pages from page number `v` on mapped to the pages from `pa` on. -/
def mapRange (f : ℕ → ℕ) (v n pa perm u : ℕ) : ℕ :=
  if v ≤ u ∧ u < v + n then entry (pa + pgsize * (u - v)) perm else f u

theorem mapRange_one : mapRange f v 1 pa perm = Function.update f v (entry pa perm) := by
  funext u
  rw [mapRange, Function.update_apply]
  by_cases hu : u = v
  · rw [if_pos hu, if_pos (by omega), hu, Nat.sub_self, Nat.mul_zero, Nat.add_zero]
  · rw [if_neg hu, if_neg (by omega)]

theorem mapRange_update : mapRange (Function.update f v (entry pa perm)) (v + 1) n (pa + pgsize) perm =
    mapRange f v (n + 1) pa perm := by
  funext u
  rw [mapRange, mapRange, Function.update_apply]
  by_cases hu : u = v
  · subst hu
    rw [if_neg (by omega), if_pos rfl, if_pos (by omega), Nat.sub_self, Nat.mul_zero, Nat.add_zero]
  · rw [if_neg hu]
    by_cases hr : v + 1 ≤ u ∧ u < v + 1 + n
    · rw [if_pos hr, if_pos (by omega)]
      congr 1
      simp only [pgsize]
      omega
    · rw [if_neg hr, if_neg (by omega)]

/-- A turn of the loop of `mappages`, for a page that is not mapped. -/
theorem Filling.step {Q : Bool → Phys → Prop} {last k : ℕ} (h : Filling K s₀ root f c R s)
    (hv : v < 16 * 1024) (hzero : f v = 0) (hpa : pa % pgsize = 0) (hlt : pa < 2 ^ 32)
    (hperm : perm < pgsize)
    (hok : ∀ s', Filling K s₀ root (Function.update f v (entry pa perm)) c R s' →
      Det.Ends E (if pgsize * v = last then pure true
        else mapLoop root last perm k (nextPage (pgsize * v)) (nextPage pa)) s' Q) :
    Det.Ends E (mapLoop root last perm (k + 1) (pgsize * v) pa) s Q := by
  have hdiv := mul_div_pgsize v
  have hneed : Avail s (need s.mem root v) := h.avail.mono (by
    have hle := need_le s.mem root v
    by_cases hd : dir s.mem root (v / 1024) = none
    · have hmem : v / 1024 ∈ missing s.mem root :=
        Finset.mem_filter.2 ⟨Finset.mem_range.2 (by omega), hd⟩
      have hpos := Finset.card_pos.2 ⟨_, hmem⟩
      omega
    · rw [need, if_neg hd]
      exact Nat.zero_le _)
  refine mapLoop_step h.good h.table (by simp only [pgsize, maxva]; omega) ?_ hpa hlt hperm
    (fun s' hav _ => absurd ?_ hav) fun s' _ htook hmap => ?_
  · rw [hdiv, h.words v (by omega), hzero]
    rfl
  · rw [hdiv]
    exact hneed
  · rw [hdiv] at htook hmap
    exact hok s' (h.mapped hv htook hmap)

/-- The loop of `mappages` over `n + 1` pages. -/
theorem mapLoop_ends {k : ℕ} (h : Filling K s₀ root f c R s) (hv : v + n < 16 * 1024)
    (hzero : ∀ u, v ≤ u → u ≤ v + n → f u = 0) (hpa : pa % pgsize = 0)
    (hlt : pa + pgsize * n < 2 ^ 32) (hperm : perm < pgsize) (hk : n < k) :
    Det.Ends E (mapLoop root (pgsize * (v + n)) perm k (pgsize * v) pa) s
      fun r s' => r = true ∧ Filling K s₀ root (mapRange f v (n + 1) pa perm) c R s' := by
  induction n generalizing v pa s f k with
  | zero =>
    obtain ⟨k, rfl⟩ := Nat.exists_eq_add_one_of_ne_zero (Nat.ne_zero_of_lt hk)
    refine h.step (by omega) (hzero v (Nat.le_refl _) (by omega)) hpa (by omega) hperm fun s' hs' => ?_
    rw [Nat.add_zero, if_pos rfl, mapRange_one]
    exact .pure ⟨rfl, hs'⟩
  | succ n ih =>
    obtain ⟨k, rfl⟩ := Nat.exists_eq_add_one_of_ne_zero (Nat.ne_zero_of_lt hk)
    simp only [pgsize] at hpa hlt
    refine h.step (by omega) (hzero v (Nat.le_refl _) (by omega)) hpa (by omega) hperm fun s' hs' => ?_
    have hnextPa : nextPage pa = pa + pgsize := by
      simp only [nextPage, pgsize]
      omega
    rw [if_neg (by simp only [pgsize]; omega), nextPage_mul (by omega), hnextPa, show v + (n + 1) = v + 1 + n by omega,
      ← mapRange_update]
    refine ih hs' (by omega) (fun u hu hu' => ?_) ?_ ?_ (by omega)
    · rw [Function.update_of_ne (by omega)]
      exact hzero u (by omega) (by omega)
    · simp only [pgsize]
      omega
    · simp only [pgsize]
      omega

/-- `kvmmap` of `n + 1` pages that are not mapped. -/
theorem kvmmap_ends {va sz : ℕ} (h : Filling K s₀ root f c R s) (hva : va = pgsize * v)
    (hsz : sz = pgsize * (n + 1)) (hv : v + n < 16 * 1024) (hzero : ∀ u, v ≤ u → u ≤ v + n → f u = 0)
    (hpa : pa % pgsize = 0) (hlt : pa + pgsize * n < 2 ^ 32) (hperm : perm < pgsize) :
    Det.Ends E (kvmmap root va pa sz perm) s
      fun _ s' => Filling K s₀ root (mapRange f v (n + 1) pa perm) c R s' := by
  have hlast : (va + sz + 2 ^ 32 - pgsize) % 2 ^ 32 = pgsize * (v + n) := by
    simp only [hva, hsz, pgsize]
    omega
  unfold kvmmap mappages
  rw [if_neg (by simp [hva]), if_neg (by simp [hsz]), if_neg (by simp [hsz]), hlast, hva]
  refine .bind (.mono (mapLoop_ends h hv hzero hpa hlt hperm (by simp only [turns]; omega)) ?_)
  rintro _ s' ⟨rfl, hs'⟩
  exact .pure hs'

/-! ## The kernel stacks -/

/-- The page number of a kernel stack. -/
def stackPage (p : ℕ) : ℕ := 0x3EFE - 2 * (p + 1)

theorem kstack_eq {p : ℕ} (hp : p < nproc) : kstack p = pgsize * stackPage p := by
  simp only [kstack, stackPage, trampoline, pgsize, nproc] at *
  omega

/-- The words `f` with the stacks of the processes from `p` to `q` mapped. -/
def mapStacks (f stk : ℕ → ℕ) (p q u : ℕ) : ℕ :=
  if p ≤ (0x3EFE - u) / 2 - 1 ∧ (0x3EFE - u) / 2 - 1 < q ∧ u = stackPage ((0x3EFE - u) / 2 - 1) then
    entry (stk ((0x3EFE - u) / 2 - 1)) (pteR ||| pteW)
  else f u

theorem mapStacks_self {stk : ℕ → ℕ} {p : ℕ} : mapStacks f stk p p = f := by
  funext u
  exact if_neg (by omega)

/-- The first of the stacks, and the others. -/
theorem mapStacks_update {stk : ℕ → ℕ} {p q x : ℕ} (hp : p < q) (hq : q ≤ nproc) :
    mapStacks (Function.update f (stackPage p) (entry x (pteR ||| pteW))) stk (p + 1) q =
      mapStacks f (Function.update stk p x) p q := by
  funext u
  simp only [mapStacks, Function.update_apply, stackPage, nproc] at *
  by_cases hu : u = 0x3EFE - 2 * (p + 1)
  · have hidx : (0x3EFE - u) / 2 - 1 = p := by omega
    rw [hidx, if_neg (by omega), if_pos hu, if_pos ⟨Nat.le_refl p, hp, hu⟩, if_pos rfl]
  · rw [if_neg hu]
    by_cases hin : p + 1 ≤ (0x3EFE - u) / 2 - 1 ∧ (0x3EFE - u) / 2 - 1 < q ∧
        u = 0x3EFE - 2 * ((0x3EFE - u) / 2 - 1 + 1)
    · rw [if_pos hin, if_pos ⟨by omega, hin.2⟩, if_neg (by omega)]
    · rw [if_neg hin, if_neg fun h => hin ⟨by omega, h.2⟩]

/-- A page is allocated. -/
theorem Filling.kalloc {p : ℕ} (h : Filling K s₀ root f (c + 1) R s) (htook : Took s s' 1)
    (hm : s'.mem = s.mem) (hf : s.freelist = p :: s'.freelist) :
    Filling K s₀ root f c ({p} + R) s' ∧ p ∈ s₀.freelist ∧ K.Frame p := by
  have hmem : p ∈ s.freelist := by
    rw [hf]
    exact List.mem_cons_self
  refine ⟨⟨?_, ?_, ?_, ?_, fun q hq => h.free ?_⟩, h.free hmem, h.good.frame p (.inl hmem)⟩
  · have hg := (h.good.cast (zero_add _).symm).moves (moves_of_kalloc hf hm)
    rw [hm]
    exact hg.cast (add_left_comm _ _ _)
  · rw [hm]
    exact h.table
  · rw [hm]
    exact h.words
  · have hav := h.avail
    rw [← Nat.add_assoc, Nat.add_comm] at hav
    rw [hm]
    exact (htook.avail_add.1 hav).2
  · rw [hf]
    exact List.mem_cons_of_mem _ hq

/-- The stacks of `n` processes from `p` on. -/
theorem mapstacksLoop_ends {p : ℕ} (h : Filling K s₀ root f n R s) (hp : p + n ≤ nproc)
    (hzero : ∀ q, p ≤ q → q < p + n → f (stackPage q) = 0) :
    Det.Ends E (mapstacksLoop root n p) s fun _ s' => ∃ stk : ℕ → ℕ,
      (∀ q, p ≤ q → q < p + n → stk q ∈ s₀.freelist) ∧
      Filling K s₀ root (mapStacks f stk p (p + n)) 0
        (((List.range' p n).map stk : Multiset ℕ) + R) s' := by
  induction n generalizing p f R s with
  | zero =>
    refine .pure ⟨id, fun q _ _ => by omega, ?_⟩
    rw [Nat.add_zero, mapStacks_self]
    exact ⟨h.good.cast (by simp), h.table, h.words, h.avail, h.free⟩
  | succ n ih =>
    unfold mapstacksLoop
    refine .bind (kalloc_ends (fun s' hav _ => absurd (h.avail.mono (by omega)) hav)
      fun x s₁ _ htook hm hf => ?_)
    obtain ⟨h₁, hx, hframe⟩ := h.kalloc htook hm hf
    have hhigh := hframe.high
    simp only [nproc, phystop] at hp hhigh
    refine .bind (.mono (kvmmap_ends (n := 0) h₁ (kstack_eq (by simp only [nproc]; omega)) rfl
      (by simp only [stackPage]; omega) (fun u hu hu' => ?_) hframe.aligned
      (by simp only [pgsize]; omega) (by decide)) fun _ s₂ h₂ => ?_)
    · rw [show u = stackPage p by omega]
      exact hzero p (Nat.le_refl _) (by omega)
    rw [mapRange_one] at h₂
    refine .mono (ih h₂ (by simp only [nproc]; omega) fun q hq hq' => ?_) ?_
    · rw [Function.update_of_ne (by simp only [stackPage]; omega)]
      exact hzero q (by omega) (by omega)
    rintro _ s₃ ⟨stk, hstk, h₃⟩
    rw [mapStacks_update (by omega) (by simp only [nproc]; omega)] at h₃
    refine ⟨Function.update stk p x, fun q hq hq' => ?_, ?_⟩
    · by_cases hqp : q = p
      · rw [hqp, Function.update_self]
        exact hx
      · rw [Function.update_of_ne hqp]
        exact hstk q (by omega) (by omega)
    · rw [show p + (n + 1) = p + 1 + n by omega]
      have hmap : (List.range' (p + 1) n).map (Function.update stk p x) =
          (List.range' (p + 1) n).map stk := List.map_congr_left fun q hq => by
        have := (List.mem_range'_1.1 hq).1
        exact Function.update_of_ne (by omega) _ _
      refine ⟨h₃.good.cast ?_, h₃.table, h₃.words, h₃.avail, h₃.free⟩
      rw [List.range'_succ, List.map_cons, hmap, Function.update_self, ← Multiset.cons_coe,
        ← Multiset.singleton_add]
      abel

/-! ## The map of the kernel -/

/-- The words of the kernel's table: physical memory, the boot stack and the devices at their own
addresses, the trampoline, a page `stk p` for the stack of each process `p`, and nothing else. -/
structure KernelMap (K : Layout) (stk : ℕ → ℕ) (w : ℕ → ℕ) : Prop where
  ram : ∀ v, pgsize * v < phystop → w v = entry (pgsize * v) (pteR ||| pteW ||| pteX)
  boot : w (bootStack / pgsize) = entry bootStack (pteR ||| pteW)
  devices : ∀ v, mmio ≤ pgsize * v → pgsize * v < mmio + 0x100000 →
    w v = entry (pgsize * v) (pteR ||| pteW)
  tramp : w (trampoline / pgsize) = entry K.trampolineStart (pteR ||| pteX)
  stack : ∀ p < nproc, w (kstack p / pgsize) = entry (stk p) (pteR ||| pteW)
  other : ∀ v, pgsize * v < maxva → phystop ≤ pgsize * v → pgsize * v ≠ bootStack →
    (pgsize * v < mmio ∨ mmio + 0x100000 ≤ pgsize * v) → pgsize * v ≠ trampoline →
    (∀ p < nproc, pgsize * v ≠ kstack p) → w v = 0

/-- The words after the calls of `kvmmap` in `kvmmake`. -/
def regions (K : Layout) : ℕ → ℕ :=
  mapRange (mapRange (mapRange (mapRange (fun _ => 0) 0x3F00 0x100 mmio (pteR ||| pteW))
    0 0x3E7E 0 (pteR ||| pteW ||| pteX)) 0x3EFF 1 bootStack (pteR ||| pteW))
    0x3EFE 1 K.trampolineStart (pteR ||| pteX)

theorem regions_eq (u : ℕ) : regions K u =
    if u < 0x3E7E then entry (pgsize * u) (pteR ||| pteW ||| pteX)
    else if u = 0x3EFE then entry K.trampolineStart (pteR ||| pteX)
    else if 0x3EFF ≤ u ∧ u < 0x4000 then entry (pgsize * u) (pteR ||| pteW)
    else 0 := by
  unfold regions mapRange
  by_cases hram : u < 0x3E7E
  · rw [if_pos hram, if_neg (by omega), if_neg (by omega), if_pos (by omega), Nat.zero_add, Nat.sub_zero]
  rw [if_neg hram]
  by_cases htramp : u = 0x3EFE
  · subst htramp
    rfl
  rw [if_neg htramp, if_neg (by omega)]
  by_cases hboot : u = 0x3EFF
  · subst hboot
    rfl
  rw [if_neg (by omega), if_neg (by omega)]
  by_cases hdev : 0x3F00 ≤ u ∧ u < 0x4000
  · have haddr : mmio + pgsize * (u - 0x3F00) = pgsize * u := by
      simp only [mmio, pgsize]
      omega
    rw [if_pos hdev, if_pos (by omega), haddr]
  · rw [if_neg (by omega), if_neg (by omega)]

theorem mapStacks_stackPage {stk : ℕ → ℕ} {p : ℕ} (hp : p < nproc) :
    mapStacks f stk 0 nproc (stackPage p) = entry (stk p) (pteR ||| pteW) := by
  simp only [nproc] at hp
  have hidx : (0x3EFE - stackPage p) / 2 - 1 = p := by
    simp only [stackPage]
    omega
  rw [mapStacks, hidx, if_pos ⟨Nat.zero_le p, hp, rfl⟩]

theorem mapStacks_of_ne {stk : ℕ → ℕ} {u : ℕ} (hu : ∀ p < nproc, u ≠ stackPage p) :
    mapStacks f stk 0 nproc u = f u :=
  if_neg fun h => hu _ h.2.1 h.2.2

theorem kernelMap_of_words {stk w : ℕ → ℕ}
    (h : ∀ u < 2 ^ 20, w u = mapStacks (regions K) stk 0 nproc u) : KernelMap K stk w := by
  -- no stack is in another region
  have hother : ∀ u < 2 ^ 20, (∀ p < nproc, u ≠ stackPage p) → w u = regions K u := fun u hu hne =>
    (h u hu).trans (mapStacks_of_ne hne)
  have hstack : ∀ p < nproc, 0x3E7E ≤ stackPage p ∧ stackPage p < 0x3EFE := fun p hp => by
    simp only [nproc, stackPage] at *
    omega
  refine ⟨fun v hv => ?_, ?_, fun v hv hv' => ?_, ?_, fun p hp => ?_, fun v hv hram hboot hdev htramp hne => ?_⟩
  · simp only [phystop, pgsize] at hv
    rw [hother v (by omega) fun p hp => by have := hstack p hp; omega, regions_eq, if_pos (by omega)]
  · rw [hother _ (by decide) fun p hp => by have := hstack p hp; simp only [bootStack, pgsize]; omega]
    rfl
  · simp only [mmio, pgsize] at hv hv'
    rw [hother v (by omega) fun p hp => by have := hstack p hp; omega, regions_eq, if_neg (by omega),
      if_neg (by omega), if_pos (by omega)]
  · rw [hother _ (by decide) fun p hp => by have := hstack p hp; simp only [trampoline, pgsize]; omega]
    rfl
  · rw [kstack_eq hp, mul_div_pgsize, h _ (by have := hstack p hp; omega),
      mapStacks_stackPage hp]
  · simp only [maxva, phystop, bootStack, mmio, trampoline, pgsize] at hv hram hboot hdev htramp
    rw [hother v (by omega) fun p hp e => hne p hp (by rw [kstack_eq hp, e]), regions_eq,
      if_neg (by omega), if_neg (by omega), if_neg (by omega)]

/-- `kvmmake` with 81 free pages. -/
theorem kvmmake_ends (hg : Good K s R) (hav : Avail s 81) :
    Det.Ends E (kvmmake K) s fun root s' => ∃ stk : ℕ → ℕ,
      (∀ p < nproc, stk p ∈ s.freelist) ∧ (∀ p < nproc, ∀ q < nproc, stk p = stk q → p = q) ∧
      KernelMap K stk (pte s'.mem root) ∧
      Good K s' (tables s'.mem root + (((List.range nproc).map stk : Multiset ℕ) + R)) := by
  unfold kvmmake
  refine .bind (kalloc_ends (fun s' h _ => absurd (hav.mono (by decide)) h)
    fun root s₁ _ htook hm hf => .bind (.of_eq rfl ?_))
  obtain ⟨ht, hz, hmv⟩ := table_of_kalloc hg hm hf
  have h₀ : Filling K s root (fun _ => 0) nproc R { s₁ with mem := s₁.mem.fill root pgsize 0 } := by
    refine ⟨(hg.cast (zero_add _).symm).moves hmv, ht, hz, ?_, fun p hp => ?_⟩
    · have hrest : Avail s₁ 80 := (htook.avail_add.1 (show Avail s (1 + 80) from hav)).2
      refine Avail.mono ⟨hrest.1, hrest.2⟩ ?_
      have := missing_card_le (s₁.mem.fill root pgsize 0) root
      simp only [nproc]
      omega
    · rw [hf]
      exact List.mem_cons_of_mem _ hp
  refine .bind (.mono (kvmmap_ends (v := 0x3F00) (n := 0xFF) h₀ rfl rfl (by decide) (fun _ _ _ => rfl)
    (by decide) (by decide) (by decide)) fun _ s₂ h₁ => ?_)
  refine .bind (.mono (kvmmap_ends (v := 0) (n := 0x3E7D) h₁ rfl rfl (by decide) (fun u _ hu => ?_)
    (by decide) (by decide) (by decide)) fun _ s₃ h₂ => ?_)
  · exact if_neg (by omega)
  rw [if_pos (by decide)]
  refine .bind (.mono (kvmmap_ends (v := 0x3EFF) (n := 0) h₂ rfl rfl (by decide) (fun u hu hu' => ?_)
    (by decide) (by decide) (by decide)) fun _ s₄ h₃ => ?_)
  · obtain rfl : u = 0x3EFF := by omega
    rfl
  have htramp : K.trampolineStart + pgsize * 0 < 2 ^ 32 := by
    have h₁ := K.tramp_le
    have h₂ := K.kend_le
    simp only [pgsize, phystop] at *
    omega
  refine .bind (.mono (kvmmap_ends (v := 0x3EFE) (n := 0) h₃ rfl rfl (by decide) (fun u hu hu' => ?_)
    K.tramp_aligned htramp (by decide)) fun _ s₅ h₄ => ?_)
  · obtain rfl : u = 0x3EFE := by omega
    rfl
  refine .bind (.mono (mapstacksLoop_ends (p := 0) h₄ (by decide) fun q _ hq => ?_) ?_)
  · show regions K (stackPage q) = 0
    simp only [nproc, stackPage] at *
    rw [regions_eq, if_neg (by omega), if_neg (by omega), if_neg (by omega)]
  rintro _ s₆ ⟨stk, hstk, h₅⟩
  rw [← List.range_eq_range'] at h₅
  refine .pure ⟨stk, fun p hp => hstk p (Nat.zero_le p) (by omega), fun p hp q hq hpq => ?_,
    kernelMap_of_words fun u hu => (h₅.words u hu).trans (by rw [Nat.zero_add]; rfl), h₅.good⟩
  have hnodup := (Multiset.nodup_add.1 (Multiset.nodup_add.1 h₅.good.held_nodup).2.1).1
  exact List.inj_on_of_nodup_map (Multiset.coe_nodup.1 hnodup) (List.mem_range.2 hp)
    (List.mem_range.2 hq) hpq

/-- The page below a kernel stack is not mapped, but for the lowest one. -/
theorem KernelMap.guard_iff {stk w : ℕ → ℕ} (h : KernelMap K stk w) {p : ℕ} (hp : p < nproc) :
    w (kstack p / pgsize - 1) = 0 ↔ p + 1 < nproc := by
  have hpage : kstack p / pgsize = stackPage p := by
    rw [kstack_eq hp, mul_div_pgsize]
  simp only [nproc] at hp
  rw [hpage]
  constructor
  · intro hzero
    by_contra hlast
    obtain rfl : p = 63 := by
      simp only [nproc] at hlast
      omega
    have hram := h.ram (stackPage 63 - 1) (by decide)
    have hval : (entry (pgsize * (stackPage 63 - 1)) (pteR ||| pteW ||| pteX)).testBit vBit = true :=
      entry_valid (by decide) (by decide)
    rw [← hram, hzero] at hval
    cases hval
  · intro hlast
    simp only [nproc] at hlast
    refine h.other _ ?_ ?_ ?_ ?_ ?_ fun q hq e => ?_
    · simp only [stackPage, pgsize, maxva]
      omega
    · simp only [stackPage, pgsize, phystop]
      omega
    · simp only [stackPage, pgsize, bootStack]
      omega
    · simp only [stackPage, pgsize, mmio]
      omega
    · simp only [stackPage, pgsize, trampoline]
      omega
    · rw [kstack_eq hq] at e
      simp only [stackPage, pgsize, nproc] at *
      omega

/-- `kvmmake` returns. -/
theorem kvmmake_returns (hg : Good K s R) (hav : Avail s 81) :
    ∃ root s' stk, kvmmake K s = .ok (root, s') ∧ KernelMap K stk (pte s'.mem root) ∧
      (∀ p < nproc, stk p ∈ s.freelist) ∧ (∀ p < nproc, ∀ q < nproc, stk p = stk q → p = q) ∧
      Good K s' (tables s'.mem root + (((List.range nproc).map stk : Multiset ℕ) + R)) := by
  obtain ⟨root, s', hrun, stk, hfree, hinj, hmap, hgood⟩ := (kvmmake_ends hg hav).returns
  exact ⟨root, s', stk, hrun, hmap, hfree, hinj, hgood⟩

/-- **The map of the kernel.** From every state in which 81 pages can be allocated, `kvmmake` returns a
table that maps each page below `MAXVA` as it should and no other, with a different free page for each
kernel stack; and the page below the stack of process `p` is not mapped if and only if `p` is not the
last one. -/
theorem kvmmake_map (K : Layout) (s : Phys) (R : Multiset ℕ) (hg : Good K s R) (hav : Avail s 81) :
    ∃ root s' stk, kvmmake K s = .ok (root, s') ∧ KernelMap K stk (pte s'.mem root) ∧
      (∀ p < nproc, stk p ∈ s.freelist) ∧ (∀ p < nproc, ∀ q < nproc, stk p = stk q → p = q) ∧
      Good K s' (tables s'.mem root + (((List.range nproc).map stk : Multiset ℕ) + R)) ∧
      ∀ p < nproc, pte s'.mem root (kstack p / pgsize - 1) = 0 ↔ p + 1 < nproc := by
  obtain ⟨root, s', stk, hrun, hmap, hfree, hinj, hgood⟩ := kvmmake_returns hg hav
  exact ⟨root, s', stk, hrun, hmap, hfree, hinj, hgood, fun p hp => hmap.guard_iff hp⟩

/-- 81 free pages. -/
def bootPhys : Phys := ⟨fun _ => 0, (List.range 81).map fun i => 0x2000 + pgsize * i, []⟩

theorem bootPhys_good : Good smallLayout bootPhys 0 := by
  refine ⟨?_, ?_⟩
  · rw [add_zero, Multiset.coe_nodup]
    exact List.nodup_range.map fun a b h => by simp only [pgsize] at h; omega
  · rintro p (hp | hp)
    · obtain ⟨i, hi, rfl⟩ := List.mem_map.1 hp
      have hlt := List.mem_range.1 hi
      refine ⟨?_, ?_, ?_⟩
      · simp only [pgsize]
        omega
      · show 0x2000 ≤ _
        omega
      · simp only [pgsize, phystop]
        omega
    · exact absurd hp (Multiset.notMem_zero p)

theorem bootPhys_avail : Avail bootPhys 81 := ⟨by decide, fun i _ => rfl⟩

theorem kvmmake_map_boot : Good smallLayout bootPhys 0 ∧ Avail bootPhys 81 ∧
    ∃ root s' stk, kvmmake smallLayout bootPhys = .ok (root, s') ∧
      KernelMap smallLayout stk (pte s'.mem root) ∧ (∀ p < nproc, stk p ∈ bootPhys.freelist) ∧
      (∀ p < nproc, ∀ q < nproc, stk p = stk q → p = q) ∧
      Good smallLayout s' (tables s'.mem root + (((List.range nproc).map stk : Multiset ℕ) + 0)) ∧
      ∀ p < nproc, pte s'.mem root (kstack p / pgsize - 1) = 0 ↔ p + 1 < nproc :=
  ⟨bootPhys_good, bootPhys_avail, kvmmake_map _ _ _ bootPhys_good bootPhys_avail⟩

/-- The page below the stack of process 63 is the last page of physical memory, which is mapped for
reading, writing and executing. -/
theorem last_stack_unguarded : ∃ root s', kvmmake smallLayout bootPhys = .ok (root, s') ∧
    pte s'.mem root (kstack 63 / pgsize - 1) =
      entry (phystop - pgsize) (pteR ||| pteW ||| pteX) := by
  obtain ⟨root, s', stk, hrun, hmap, -⟩ := kvmmake_returns bootPhys_good bootPhys_avail
  have hpage : kstack 63 / pgsize - 1 = 0x3E7D := by decide
  have haddr : phystop - pgsize = pgsize * 0x3E7D := by decide
  refine ⟨root, s', hrun, ?_⟩
  rw [hpage, haddr]
  exact hmap.ram 0x3E7D (by decide)

end Xv6.Vm
