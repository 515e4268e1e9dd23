import Xv6.Vm.Space

/-!
# Page tables that are made and given back

`proc_pagetable` makes the address space of a process without memory, or gives back what it has taken
(`procPagetable_ends`); `proc_freepagetable` gives back the pages of an address space and those it
maps, all but the trap frame and the trampoline (`procFreepagetable_ends`).
-/

namespace Xv6.Vm

open Transfer

variable {K : Layout} {E : Halt → Prop} {s s' : Phys} {m : ByteMem} {R : Multiset ℕ} {root sz tf : ℕ}

/-! ## Blank tables -/

section Blank

variable (hr : root % pgsize = 0) (hz : ∀ a, pgrounddown a = root → m a = 0)

include hr hz

theorem ld_blank {i : ℕ} (hi : i < 1024) : m.ld (root + 4 * i) = 0 := by
  have h : ∀ k < 4, m (root + 4 * i + k) = 0 := fun k hk => hz _ (by
    simp only [pgrounddown, pgsize] at *
    omega)
  have h₀ := h 0 (by omega)
  rw [Nat.add_zero] at h₀
  unfold ByteMem.ld
  rw [h₀, h 1 (by omega), h 2 (by omega), h 3 (by omega)]
  rfl

theorem dir_blank {i : ℕ} (hi : i < 1024) : dir m root i = none := by
  unfold dir
  rw [ld_blank hr hz hi]
  rfl

theorem pte_blank {v : ℕ} (hv : v < 2 ^ 20) : pte m root v = 0 := by
  unfold pte
  rw [dir_blank hr hz (by omega)]
  rfl

theorem table_blank : Table m root :=
  ⟨fun i hi => by rw [ld_blank hr hz hi, dir_blank hr hz hi]; rfl,
    fun v hv => .inl (pte_blank hr hz hv)⟩

theorem tables_blank : tables m root = {root} := by
  unfold tables
  rw [dirs, Finset.sum_eq_zero fun i hi => by rw [dir_blank hr hz (Finset.mem_Ico.1 hi).2]; rfl,
    add_zero]

end Blank

/-- A page that is allocated and cleared is a table that maps nothing. -/
theorem table_of_kalloc {p : ℕ} (hg : Good K s R) (hm : s'.mem = s.mem)
    (hf : s.freelist = p :: s'.freelist) :
    Table (s'.mem.fill p pgsize 0) p ∧ (∀ v < 2 ^ 20, pte (s'.mem.fill p pgsize 0) p v = 0) ∧
      s.Moves { s' with mem := s'.mem.fill p pgsize 0 } 0 (tables (s'.mem.fill p pgsize 0) p) := by
  have hmem : p ∈ s.freelist := by
    rw [hf]
    exact List.mem_cons_self
  have hal := (hg.frame p (.inl hmem)).aligned
  have hz : ∀ a, pgrounddown a = p → s'.mem.fill p pgsize 0 a = 0 := fun a ha => if_pos (by
    simp only [pgrounddown, pgsize] at *
    omega)
  refine ⟨table_blank hal hz, fun v hv => pte_blank hal hz hv, ?_⟩
  rw [tables_blank hal hz]
  refine (moves_of_kalloc hf hm).trans (moves_of_write fun a ha => zeroPage_keeps p _ a hal fun e => ha ?_)
  rw [e]
  exact Multiset.mem_singleton_self p

/-- `uvmcreate`. -/
theorem uvmcreate_ends {Q : Option ℕ → Phys → Prop} (hg : Good K s R)
    (hfail : ∀ s', ¬ Avail s 1 → Same s s' → Q none s')
    (hok : ∀ root s', Took s s' 1 → Table s'.mem root → (∀ v < 2 ^ 20, pte s'.mem root v = 0) →
      s.Moves s' 0 (tables s'.mem root) → Q (some root) s') : Det.Ends E uvmcreate s Q := by
  refine .bind (kalloc_ends (fun s' hav hs => .pure (hfail s' hav hs)) fun p s' _ htk hm hf => ?_)
  obtain ⟨ht, hz, hmv⟩ := table_of_kalloc hg hm hf
  exact .bind (.of_eq rfl (.pure (hok p _ ⟨htk.freelist, htk.deny⟩ ht hz hmv)))

/-! ## `uvmfree` and `proc_freepagetable` -/

/-- `uvmfree` of a table that maps nothing beyond the size. -/
theorem uvmfree_ends (hle : sz ≤ maxva)
    (hg : Good K s (tables s.mem root + (users s.mem root 0 (pgs sz) + R))) (ht : Table s.mem root)
    (hz : ∀ v < 2 ^ 20, pgs sz ≤ v → pte s.mem root v = 0) :
    Det.Ends E (uvmfree K root sz) s
      fun _ s' => s.Moves s' (tables s.mem root + users s.mem root 0 (pgs sz)) 0 := by
  have hturns : turns = 2 ^ 20 - 1 + 2 := rfl
  unfold uvmfree
  rw [hturns]
  by_cases hpos : sz > 0
  · have hn : pgroundup sz / pgsize = pgs sz := by
      rw [pgroundup_eq (by simp only [maxva, pgsize] at *; omega), mul_div_pgsize]
    have hg' : Good K s (tables s.mem root +
        ((if true then users s.mem root 0 (0 + pgs sz) else 0) + R)) := by
      rw [Nat.zero_add]
      exact hg
    have hun := uvmunmap_ends (E := E) hg' ht (by simp only [pgs, pgsize, maxva] at *; omega)
    rw [Nat.zero_add, if_pos rfl] at hun
    rw [if_pos hpos, hn]
    refine .bind (.mono hun fun _ s' hc => ?_)
    have hg'' := (hg.cast (add_assoc _ _ _).symm).moves hc.moves
    refine .mono (freewalk_ends hg'' hc.table fun v hv => ?_) fun _ s'' hm => hc.moves.trans hm
    rw [hc.words v hv]
    split
    · rfl
    · exact hz v hv (by omega)
  · obtain rfl : sz = 0 := by omega
    have h0 : pgs 0 = 0 := rfl
    rw [h0, users_self, zero_add] at hg
    rw [if_neg hpos, h0, users_self, add_zero]
    exact freewalk_ends hg ht fun v hv => hz v hv (Nat.zero_le _)

/-- A page that is not freed is unmapped. -/
theorem uvmunmap_one {va v : ℕ} (hva : va = pgsize * v) (hg : Good K s (tables s.mem root + R))
    (ht : Table s.mem root) (hv : pgsize * (v + 1) ≤ maxva) :
    Det.Ends E (uvmunmap K root va 1 false) s fun _ s' => Cleared root v (v + 1) 0 s s' := by
  have hg' : Good K s (tables s.mem root + ((if false then users s.mem root v (v + 1) else 0) + R)) := by
    rw [if_neg (by decide), zero_add]
    exact hg
  rw [hva]
  exact uvmunmap_ends hg' ht hv

/-- `proc_freepagetable` of a table that maps nothing but the trampoline, the trap frame and pages
below the size. -/
theorem procFreepagetable_ends (hle : sz ≤ trapframe)
    (hg : Good K s (tables s.mem root + (users s.mem root 0 (pgs sz) + R))) (ht : Table s.mem root)
    (hz : ∀ v < 2 ^ 20, (pte s.mem root v).testBit vBit = true →
      v < pgs sz ∨ v = tfPage ∨ v = trampPage) :
    Det.Ends E (procFreepagetable K root sz) s
      fun _ s' => s.Moves s' (tables s.mem root + users s.mem root 0 (pgs sz)) 0 := by
  have hpg := pgs_le_tfPage hle
  have htf : tfPage = 16125 := by decide
  have htr : trampPage = 16126 := by decide
  unfold procFreepagetable
  refine .bind (.mono (uvmunmap_one (v := trampPage) (by decide) hg ht (by decide)) fun _ s₁ h₁ => ?_)
  have hm₁ := h₁.moves
  rw [add_zero] at hm₁
  have hg₁ := hg.moves hm₁
  refine .bind (.mono (uvmunmap_one (v := tfPage) (by decide) hg₁ h₁.table (by decide)) fun _ s₂ h₂ => ?_)
  have hm₂ := h₂.moves
  rw [add_zero] at hm₂
  have hg₂ := hg₁.moves hm₂
  -- the pages below the size are as before
  have hw : ∀ v < 2 ^ 20, pte s₂.mem root v = if v = tfPage ∨ v = trampPage then 0 else pte s.mem root v := by
    intro v hv
    rw [h₂.words v hv, h₁.words v hv]
    by_cases hc : v = tfPage ∨ v = trampPage
    · rw [if_pos hc]
      split
      · rfl
      · exact if_pos (by omega)
    · rw [if_neg hc, if_neg (by omega), if_neg (by omega)]
  have hus : users s₂.mem root 0 (pgs sz) = users s.mem root 0 (pgs sz) :=
    users_congr fun u _ hu => (hw u (by omega)).trans (if_neg (by omega))
  refine .mono (uvmfree_ends (by simp only [trapframe, trampoline, pgsize, maxva] at *; omega)
    (by rw [hus]; exact hg₂) h₂.table fun v hv hge => ?_) fun _ s₃ h₃ => ?_
  · rw [hw v hv]
    by_cases hc : v = tfPage ∨ v = trampPage
    · exact if_pos hc
    · rw [if_neg hc]
      refine (ht.leaf v hv).resolve_right fun hval => ?_
      have := hz v hv hval
      omega
  · rw [hus] at h₃
    exact ((hm₁.trans hm₂).frame _).trans h₃

/-! ## `proc_pagetable` -/

theorem kernelPage_entry {p perm : ℕ} (hp : p % pgsize = 0) (hperm : perm < pgsize)
    (hu : (perm ||| pteV).testBit uBit = false) : KernelPage (entry p perm) p :=
  ⟨entry_valid hp hperm, by rw [entry_testBit hp hperm (by decide)]; exact hu, pte2pa_entry hp hperm⟩

/-- `proc_pagetable` makes an address space of size 0. -/
theorem procPagetable_ends {Q : Option ℕ → Phys → Prop} (hg : Good K s R) (htf : tf % pgsize = 0)
    (hlt : tf < 2 ^ 32) (hfail : ∀ s', ¬ Avail s 2 → s.Moves s' 0 0 → Q none s')
    (hok : ∀ root s', Space K s'.mem root 0 tf → s.Moves s' 0 (tables s'.mem root) → Q (some root) s') :
    Det.Ends E (procPagetable K tf) s Q := by
  have h16125 : tfPage = 16125 := by decide
  have h16126 : trampPage = 16126 := by decide
  have htr : K.trampolineStart < 2 ^ 32 := by
    have h₁ := K.tramp_le
    have h₂ := K.kend_le
    simp only [phystop, pgsize] at *
    omega
  unfold procPagetable
  refine .bind (uvmcreate_ends hg (fun s' hav hs => .pure (hfail s' (fun h => hav (h.mono (by decide))) hs.moves))
    fun root s₁ htk ht₁ hz₁ hm₁ => ?_)
  have hg₁ := (hg.cast (zero_add _).symm).moves hm₁
  refine .bind (mappages_ends hg₁ ht₁ (by decide) (by decide) (by rw [hz₁ _ (by decide)]; rfl)
    K.tramp_aligned htr (by decide) (fun s₂ hav hs₂ => ?_) fun s₂ _ _ h₂ => ?_)
  · -- the table is blank, and goes back
    have hz₂ : ∀ v < 2 ^ 20, pgs 0 ≤ v → pte s₂.mem root v = 0 := fun v hv _ => by
      rw [hs₂.mem]
      exact hz₁ v hv
    have hg₂ : Good K s₂ (tables s₂.mem root + (users s₂.mem root 0 (pgs 0) + R)) := by
      rw [show pgs 0 = 0 from rfl, users_self, zero_add, hs₂.mem]
      exact hg₁.congr hs₂.freelist
    refine .bind (.mono (uvmfree_ends (by decide) hg₂ (by rw [hs₂.mem]; exact ht₁) hz₂)
      fun _ s₃ hm₃ => .pure (hfail s₃ (fun h => hav ?_) ?_))
    · exact ((htk.avail_add (n := 1)).1 h).2.mono (need_le _ _ _)
    · rw [show pgs 0 = 0 from rfl, users_self, add_zero] at hm₃
      have hmv : s₁.Moves s₂ (tables s₁.mem root) (tables s₂.mem root) := by
        rw [hs₂.mem]
        exact hs₂.moves
      exact hm₁.trans (hmv.trans hm₃)
  · have hg₂ := hg₁.moves h₂.moves
    have hneed : need s₂.mem root (trapframe / pgsize) = 0 := if_neg h₂.has
    refine .bind (mappages_ends hg₂ h₂.table (by decide) (by decide) ?_ htf hlt (by decide)
      (fun s₃ hav _ => absurd ?_ hav) fun s₃ _ _ h₃ => .pure (hok root s₃ ?_ ?_))
    · rw [h₂.words _ (by decide), if_neg (by decide), hz₁ _ (by decide)]
      rfl
    · rw [hneed]
      exact ⟨Nat.zero_le _, fun i hi => absurd hi (by omega)⟩
    · have hw : ∀ v < 2 ^ 20, pte s₃.mem root v = if v = tfPage then entry tf (pteR ||| pteW)
          else if v = trampPage then entry K.trampolineStart (pteR ||| pteX) else 0 := by
        intro v hv
        rw [h₃.words v hv, h₂.words v hv, hz₁ v hv]
      refine ⟨h₃.table, by decide, ?_, ?_, fun v hv hval => .inr ?_, fun v hv => absurd hv (by
        rw [show pgs 0 = 0 from rfl]
        omega)⟩
      · rw [hw _ (by decide), if_neg (by decide), if_pos rfl]
        exact kernelPage_entry K.tramp_aligned (by decide) (by decide)
      · rw [hw _ (by decide), if_pos rfl]
        exact kernelPage_entry htf (by decide) (by decide)
      · by_contra hno
        rw [not_or] at hno
        rw [hw v hv, if_neg hno.1, if_neg hno.2] at hval
        simp at hval
    · exact hm₁.trans (h₂.moves.trans h₃.moves)

/-! ## A small machine -/

/-- A kernel of two pages, the second of them the trampoline. -/
def smallLayout : Layout := ⟨0x2000, 0x1000, by decide, by decide, rfl, by decide⟩

/-- Five free pages behind the page at `0x2000`. -/
def smallPhys : Phys := ⟨fun _ => 0, [0x3000, 0x4000, 0x5000, 0x6000, 0x7000], []⟩

theorem good_smallPhys : Good smallLayout smallPhys {0x2000} := by
  refine ⟨by decide, fun p hp => ?_⟩
  have hmem : p ∈ [0x2000, 0x3000, 0x4000, 0x5000, 0x6000, 0x7000] := by
    simpa [smallPhys, or_comm, or_assoc] using hp
  simp only [List.mem_cons, List.not_mem_nil, or_false] at hmem
  obtain rfl | rfl | rfl | rfl | rfl | rfl := hmem <;> exact ⟨by decide, by decide, by decide⟩

/-- There is an address space, of a page that is not mapped. -/
theorem space_small : ∃ (s : Phys) (root : ℕ), Space smallLayout s.mem root 0x1000 0x2000 ∧
    Good smallLayout s (tables s.mem root + (frames s.mem root 0x1000 0x2000 + 0)) := by
  have hg := good_smallPhys
  have hrun := procPagetable_ends (E := fun _ => False) (Q := fun r s => ∃ root, r = some root ∧
    Space smallLayout s.mem root 0 0x2000 ∧ Good smallLayout s (tables s.mem root + {0x2000}))
    hg (by decide) (by decide)
    (fun s' hav _ => absurd ⟨by decide, fun i _ => by simp [smallPhys]⟩ hav)
    fun root s' hsp hm => ⟨root, rfl, hsp, (hg.cast (zero_add _).symm).moves hm⟩
  obtain ⟨r, s, -, root, -, hsp, hgood⟩ := hrun.returns
  obtain ⟨hsp', hfr⟩ := hsp.extend (Nat.zero_le 0x1000) (by decide)
  refine ⟨s, root, hsp', ?_⟩
  rw [hfr]
  unfold frames
  rw [show pgs 0 = 0 from rfl, users_self, zero_add, add_zero]
  exact hgood

end Xv6.Vm
