import Xv6.Vm.Space
import Mathlib.Data.Finset.Image

/-!
# Pages that are mapped on demand

`vmfault` from any address space (`vmfault_ends`): a page below the size that is not mapped is mapped
to a new frame of zeros, and else nothing happens. To the process such a page looks the same before
and after (`seen`). `frameFor` is what the copy loops do for a page (`frameFor_ends`); `calls` counts
the pages that it takes to do so for a set of pages one after another.
-/

namespace Xv6.Vm

open Transfer

variable {K : Layout} {E : Halt → Prop} {s s' : Phys} {m m' : ByteMem} {R : Multiset ℕ}
  {root sz tf va v p : ℕ}

/-- The byte that a process sees at an address: a page below the size that is not mapped is full of
zeros. -/
def seen (m : ByteMem) (root sz a : ℕ) : Option UInt8 :=
  if (pte m root (a / pgsize)).testBit vBit then
    some (m (pte2pa (pte m root (a / pgsize)) + a % pgsize))
  else if pgsize * (a / pgsize) < sz then some 0
  else none

/-- A page of the process, mapped with `PTE_U`. -/
structure UserPage (m : ByteMem) (root v : ℕ) : Prop where
  valid : (pte m root v).testBit vBit = true
  user : (pte m root v).testBit uBit = true

/-! ## The count of the pages it takes -/

/-- The calls of `kalloc` that it takes to map those of a set of pages that are not mapped. -/
def calls (m : ByteMem) (root : ℕ) (P : Finset ℕ) : ℕ :=
  (P.filter fun v => (pte m root v).testBit vBit = false).card +
    ((P.image (· / 1024)).filter fun i => dir m root i = none).card

section Calls

variable {P : Finset ℕ}

theorem dir_of_valid (h : (pte m root v).testBit vBit = true) : dir m root (v / 1024) ≠ none := by
  intro hd
  rw [pte_of_none hd, Nat.zero_testBit] at h
  cases h

theorem calls_empty : calls m root ∅ = 0 := rfl

theorem calls_mapped (h : (pte m root v).testBit vBit = true) :
    calls m root (insert v P) = calls m root P := by
  unfold calls
  rw [Finset.filter_insert, if_neg (by rw [h]; simp), Finset.image_insert, Finset.filter_insert,
    if_neg (dir_of_valid h)]

/-- A page is mapped, and the rest remains. -/
theorem calls_insert (h : (pte m root v).testBit vBit = false) (hv : v ∉ P)
    (hP : ∀ u ∈ P, u < 2 ^ 20) (hw : ∀ u < 2 ^ 20, u ≠ v → pte m' root u = pte m root u)
    (hd : dir m' root (v / 1024) ≠ none)
    (ho : ∀ i < 1024, i ≠ v / 1024 → dir m' root i = dir m root i) :
    calls m root (insert v P) = 1 + need m root v + calls m' root P := by
  have hpages : (P.filter fun u => (pte m' root u).testBit vBit = false) =
      P.filter fun u => (pte m root u).testBit vBit = false :=
    Finset.filter_congr fun u hu => by rw [hw u (hP u hu) fun e => hv (e ▸ hu)]
  have hdirs : ((P.image (· / 1024)).filter fun i => dir m' root i = none) =
      ((P.image (· / 1024)).filter fun i => dir m root i = none).erase (v / 1024) := by
    ext i
    rw [Finset.mem_filter, Finset.mem_erase, Finset.mem_filter]
    by_cases hi : i = v / 1024
    · subst hi
      simp [hd]
    · rw [and_iff_right hi]
      refine and_congr_right fun hmem => ?_
      obtain ⟨u, hu, rfl⟩ := Finset.mem_image.1 hmem
      rw [ho _ (by have := hP u hu; omega) hi]
  unfold calls
  rw [Finset.filter_insert, if_pos h,
    Finset.card_insert_of_notMem fun hx => hv (Finset.mem_filter.1 hx).1, Finset.image_insert,
    Finset.filter_insert, hpages, hdirs]
  by_cases hn : dir m root (v / 1024) = none
  · have hcard : ∀ F : Finset ℕ, (insert (v / 1024) F).card = (F.erase (v / 1024)).card + 1 :=
      fun F => by
        rw [← Finset.card_insert_of_notMem (Finset.notMem_erase (v / 1024) F)]
        congr 1
        ext i
        by_cases hi : i = v / 1024 <;> simp [hi]
    rw [if_pos hn, show need m root v = 1 from if_pos hn, hcard]
    omega
  · rw [if_neg hn, show need m root v = 0 from if_neg hn, Finset.erase_eq_of_notMem (by simp [hn])]
    omega

theorem calls_one (h : (pte m root v).testBit vBit = false) :
    calls m root {v} = 1 + need m root v := by
  unfold calls
  rw [Finset.filter_singleton, if_pos h, Finset.image_singleton, Finset.filter_singleton]
  unfold need
  split <;> rfl

end Calls

/-! ## Reads of the table -/

theorem walkaddr_eq : walkaddr root va s = .ok
    (if va < maxva ∧ (pte s.mem root (va / pgsize)).testBit vBit = true ∧
        (pte s.mem root (va / pgsize)).testBit uBit = true
      then pte2pa (pte s.mem root (va / pgsize)) else 0, s) := by
  unfold walkaddr
  by_cases hva : va < maxva
  · rw [if_neg (by omega), walk_load hva fun _ => rfl]
    simp only [and_iff_right hva]
    cases hd : dir s.mem root (va / pgsize / 1024) with
    | none =>
      rw [pte_of_none hd]
      rfl
    | some t =>
      cases (pte s.mem root (va / pgsize)).testBit vBit <;>
        cases (pte s.mem root (va / pgsize)).testBit uBit <;> rfl
  · rw [if_pos (by omega), if_neg fun h => hva h.1]
    rfl

theorem ismapped_eq (hva : va < maxva) :
    ismapped root va s = .ok ((pte s.mem root (va / pgsize)).testBit vBit, s) := by
  unfold ismapped
  rw [walk_load hva fun _ => rfl]
  cases hd : dir s.mem root (va / pgsize / 1024) with
  | none =>
    rw [pte_of_none hd, Nat.zero_testBit]
    rfl
  | some t => rfl

/-! ## `vmfault` -/

theorem pgrounddown_div : pgrounddown va / pgsize = va / pgsize :=
  Nat.mul_div_cancel _ (by decide)

theorem vmfault_ends {Q : ℕ → Phys → Prop} (hg : Good K s (tables s.mem root + R))
    (ht : Table s.mem root) (hsz : sz ≤ maxva)
    (hzero : ∀ s', ¬ (va < sz ∧ (pte s.mem root (va / pgsize)).testBit vBit = false ∧
      Avail s (calls s.mem root {va / pgsize})) → s.Moves s' 0 0 → Q 0 s')
    (hok : ∀ p s', va < sz → (pte s.mem root (va / pgsize)).testBit vBit = false →
      Took s s' (calls s.mem root {va / pgsize}) → Avail s (calls s.mem root {va / pgsize}) →
      NewPage K root (va / pgsize) p (entry p (pteW ||| pteU ||| pteR)) (fun m => m.fill p pgsize 0) s s' →
      Q p s') : Det.Ends E (vmfault K ⟨sz, root⟩ root va) s Q := by
  unfold vmfault
  by_cases hva : va ≥ sz
  · rw [if_pos hva]
    exact .pure (hzero s (fun h => by omega) .refl)
  have hmax : pgrounddown va < maxva := by
    simp only [pgrounddown, pgsize, maxva] at *
    omega
  rw [if_neg hva]
  refine .bind (.of_eq (ismapped_eq hmax) ?_)
  rw [pgrounddown_div]
  cases hval : (pte s.mem root (va / pgsize)).testBit vBit with
  | true =>
    rw [if_pos rfl]
    exact .pure (hzero s (fun h => by rw [hval] at h; exact absurd h.2.1 (by decide)) .refl)
  | false =>
    have hpg : pgrounddown va / pgsize = va / pgsize := pgrounddown_div
    rw [if_neg (by decide)]
    refine mapNew_ends (fun _ _ => rfl) zeroPage_keeps hg ht hmax (Nat.mul_mod_left _ _)
      (by rw [hpg]; exact hval) (by decide) (fun s' hav hs => ?_) (fun s' hav hm => ?_)
      fun p s' hav htk hn => ?_
    all_goals rw [hpg, ← calls_one hval] at hav
    · exact .pure (hzero s' (fun h => hav h.2.2) hs.moves)
    · exact .pure (hzero s' (fun h => hav h.2.2) hm)
    · rw [hpg] at htk hn
      rw [← calls_one hval] at htk
      exact .pure (hok p s' (by omega) hval htk hav hn)

/-! ## Address spaces with a page more -/

theorem users_set {a b : ℕ} (ha : a ≤ v) (hb : v < b) (hval : (pte m root v).testBit vBit = false)
    (h : ∀ u, a ≤ u → u < b → u ≠ v → pte m' root u = pte m root u) :
    users m' root a b = users m root a b + frameOf (pte m' root v) := by
  have hsum := sum_change (f := fun u => frameOf (pte m root u)) (g := fun u => frameOf (pte m' root u))
    (Finset.mem_Ico.2 ⟨ha, hb⟩) fun u hu hne => by
      rw [h u (Finset.mem_Ico.1 hu).1 (Finset.mem_Ico.1 hu).2 hne]
  simp only [frameOf_invalid hval, add_zero] at hsum
  rw [users, users]
  exact hsum

section NewPage

variable {perm : ℕ} {f : ByteMem → ByteMem} (hsp : Space K s.mem root sz tf)
  (hn : NewPage K root v p (entry p perm) f s s') (hperm : perm < pgsize) (hv : v < pgs sz)
  (hval : (pte s.mem root v).testBit vBit = false)

include hsp hn hperm hv

theorem Space.newPage (hr : (perm ||| pteV).testBit rBit = true) : Space K s'.mem root sz tf := by
  have hle := hsp.pgs_le
  have htf : tfPage = 16125 := by decide
  have htr : trampPage = 16126 := by decide
  refine ⟨hn.table, hsp.size, ?_, ?_, fun u hu hval => ?_, fun u hu hval => ?_⟩
  · rw [hn.words _ (by decide), if_neg (by omega)]
    exact hsp.tramp
  · rw [hn.words _ (by decide), if_neg (by omega)]
    exact hsp.frame
  · rw [hn.words u hu] at hval
    by_cases huv : u = v
    · exact .inl (huv ▸ hv)
    · rw [if_neg huv] at hval
      exact hsp.only u hu hval
  · rw [hn.words u (by omega)] at hval ⊢
    by_cases huv : u = v
    · rw [if_pos huv, entry_testBit hn.frame.aligned hperm (by decide)]
      exact hr
    · rw [if_neg huv] at hval ⊢
      exact hsp.read u hu hval

include hval in
theorem frames_newPage : frames s'.mem root sz tf = frames s.mem root sz tf + {p} := by
  have hle := hsp.pgs_le_num
  unfold frames
  rw [users_set (Nat.zero_le v) hv hval fun u _ hu hne => by rw [hn.words u (by omega), if_neg hne],
    hn.words v (by omega), if_pos rfl, frameOf_valid (entry_valid hn.frame.aligned hperm),
    pte2pa_entry hn.frame.aligned hperm]
  abel

include hval in
theorem Good.newPage (hg : Good K s (tables s.mem root + (frames s.mem root sz tf + R))) :
    Good K s' (tables s'.mem root + (frames s'.mem root sz tf + R)) := by
  rw [frames_newPage hsp hn hperm hv hval]
  exact (hg.moves hn.moves).cast (by abel)

include hval in
/-- A page of zeros was seen before it was mapped. -/
theorem seen_newPage (hg : Good K s (tables s.mem root + (frames s.mem root sz tf + R)))
    (hz : ∀ a, pgrounddown a = p → f s.mem a = 0) {a : ℕ} (ha : a < 2 ^ 32) :
    seen s'.mem root sz a = seen s.mem root sz a := by
  have hpage : a / pgsize < 2 ^ 20 := by
    simp only [pgsize]
    omega
  unfold seen
  rw [hn.words _ hpage]
  by_cases hav : a / pgsize = v
  · have hmod := pgrounddown_add hn.frame.aligned (Nat.mod_lt a (show 0 < pgsize by decide))
    rw [if_pos hav, hav, if_pos (entry_valid hn.frame.aligned hperm), hval,
      pte2pa_entry hn.frame.aligned hperm, hn.data _ hmod, hz _ hmod, if_neg (by decide),
      if_pos (lt_pgs.1 hv)]
  · rw [if_neg hav]
    split
    · next h => rw [hsp.byte_kept hg hn.moves hpage h]
    · rfl

end NewPage

/-! ## The page of an address -/

/-- A page that the kernel copies to (`write`) or from for the process. -/
def Usable (write : Bool) (m : ByteMem) (root sz v : ℕ) : Prop :=
  if (pte m root v).testBit vBit then
    (pte m root v).testBit uBit = true ∧ (write = true → (pte m root v).testBit wBit = true)
  else pgsize * v < sz

namespace Space

/-- Pages with `PTE_U` lie below the size. -/
theorem user_lt (hsp : Space K s.mem root sz tf) (hv : v < 2 ^ 20) (hu : UserPage s.mem root v) :
    v < pgs sz := by
  obtain h | rfl | rfl := hsp.only v hv hu.valid
  · exact h
  · exact absurd hu.user (by rw [hsp.frame.user]; decide)
  · exact absurd hu.user (by rw [hsp.tramp.user]; decide)

theorem usable_lt {write : Bool} (hsp : Space K s.mem root sz tf) (hv : v < 2 ^ 20)
    (hu : Usable write s.mem root sz v) : v < pgs sz := by
  unfold Usable at hu
  split at hu
  · next h => exact hsp.user_lt hv ⟨h, hu.1⟩
  · exact lt_pgs.2 hu

theorem user_frame (hsp : Space K s.mem root sz tf) (hv : v < 2 ^ 20) (hu : UserPage s.mem root v) :
    pte2pa (pte s.mem root v) ∈ users s.mem root 0 (pgs sz) :=
  mem_users.2 ⟨v, Nat.zero_le _, hsp.user_lt hv hu, by
    rw [frameOf_valid hu.valid]
    exact Multiset.mem_singleton_self _⟩

end Space

/-- Page number `v` has been dealt with, at the cost of the calls of `kalloc` for it. -/
structure Passed (root v : ℕ) (s s' : Phys) : Prop where
  took : Took s s' (calls s.mem root {v})
  rest : ∀ P : Finset ℕ, v ∉ P → (∀ u ∈ P, u < 2 ^ 20) →
    calls s.mem root (insert v P) = calls s.mem root {v} + calls s'.mem root P
  words : ∀ u < 2 ^ 20, u ≠ v → pte s'.mem root u = pte s.mem root u

/-- The process has page number `v`, which was there or has been mapped by `vmfault`. -/
structure Entered (K : Layout) (root sz tf v p : ℕ) (R : Multiset ℕ) (s s' : Phys) : Prop extends
    Passed root v s s' where
  space : Space K s'.mem root sz tf
  good : Good K s' (tables s'.mem root + (frames s'.mem root sz tf + R))
  page : UserPage s'.mem root v
  frame : pte2pa (pte s'.mem root v) = p
  old : (pte s.mem root v).testBit vBit = true → s' = s
  new : (pte s.mem root v).testBit vBit = false →
    pte s'.mem root v = entry p (pteW ||| pteU ||| pteR) ∧ p ∈ s.freelist
  looks : ∀ a < 2 ^ 32, seen s'.mem root sz a = seen s.mem root sz a
  held : ∀ q, q ∈ s'.freelist ∨ q ∈ tables s'.mem root → q ∈ s.freelist ∨ q ∈ tables s.mem root
  kept : ∀ a, pgrounddown a ∉ s.freelist → pgrounddown a ∉ tables s.mem root → s'.mem a = s.mem a

/-- Memory outside the table may change. -/
theorem Passed.congr (h : Passed root v s s') (hal : ∀ p ∈ tables s'.mem root, p % pgsize = 0)
    (hq : ∀ a, pgrounddown a ∈ tables s'.mem root → m a = s'.mem a) :
    Passed root v s { s' with mem := m } := by
  refine ⟨⟨h.took.freelist, h.took.deny⟩, fun P hv hP => ?_, fun u hu hne => ?_⟩
  · rw [h.rest P hv hP]
    congr 1
    unfold calls
    congr 2
    · exact Finset.filter_congr fun u hu => by rw [pte_congr hal hq (hP u hu)]
    · refine Finset.filter_congr fun i hi => ?_
      obtain ⟨u, hu, rfl⟩ := Finset.mem_image.1 hi
      rw [dir_congr' hal hq (by have := hP u hu; omega)]
  · rw [pte_congr hal hq hu]
    exact h.words u hu hne

section FrameFor

variable (hsp : Space K s.mem root sz tf)
  (hg : Good K s (tables s.mem root + (frames s.mem root sz tf + R))) (hv : v < 2 ^ 20)

include hsp hg hv

omit hv in
theorem entered_old (hu : UserPage s.mem root v) :
    Entered K root sz tf v (pte2pa (pte s.mem root v)) R s s := by
  have h0 : calls s.mem root {v} = 0 := by
    rw [← insert_empty_eq, calls_mapped hu.valid, calls_empty]
  refine ⟨⟨by rw [h0]; exact .refl, fun P _ _ => ?_, fun _ _ _ => rfl⟩, hsp, hg, hu, rfl, fun _ => rfl,
    fun h => absurd h (by rw [hu.valid]; decide), fun _ _ => rfl, fun _ h => h, fun _ _ _ => rfl⟩
  rw [calls_mapped hu.valid, h0, Nat.zero_add]

theorem entered_new (hlt : pgsize * v < sz) (hval : (pte s.mem root v).testBit vBit = false)
    (htk : Took s s' (calls s.mem root {v}))
    (hn : NewPage K root v p (entry p (pteW ||| pteU ||| pteR)) (fun m => m.fill p pgsize 0) s s') :
    Entered K root sz tf v p R s s' := by
  have hpg := lt_pgs.2 hlt
  have hpte : pte s'.mem root v = entry p (pteW ||| pteU ||| pteR) := by rw [hn.words v hv, if_pos rfl]
  have hal := hn.frame.aligned
  refine ⟨⟨htk, fun P hvP hP => ?_, fun u hu hne => by rw [hn.words u hu, if_neg hne]⟩,
    hsp.newPage hn (by decide) hpg (by decide), hg.newPage hsp hn (by decide) hpg hval, ⟨?_, ?_⟩, ?_,
    fun h => absurd h (by rw [hval]; decide), fun _ => ⟨hpte, hn.fresh⟩, fun a ha => ?_, fun q hq => ?_,
    hn.moves.same⟩
  · rw [calls_insert hval hvP hP (fun u hu hne => by rw [hn.words u hu, if_neg hne]) hn.has hn.others,
      calls_one hval]
  · rw [hpte]
    exact entry_valid hal (by decide)
  · rw [hpte, entry_testBit hal (by decide) (by decide)]
    decide
  · rw [hpte, pte2pa_entry hal (by decide)]
  · refine seen_newPage hsp hn (by decide) hpg hval hg (fun b hb => if_pos ?_) ha
    simp only [pgrounddown, pgsize] at *
    omega
  · exact hn.moves.mem_iff.1 (hq.imp_right fun h => Multiset.mem_add.2 (.inl h))

/-- The page of an address, as the copy loops get it. -/
theorem frameFor_ends {Q : ℕ → Phys → Prop}
    (hfail : ∀ s', ¬ (Usable false s.mem root sz v ∧ Avail s (calls s.mem root {v})) →
      s.Moves s' 0 0 → Q 0 s')
    (hok : ∀ p s', p ≠ 0 → Usable false s.mem root sz v → Avail s (calls s.mem root {v}) →
      Entered K root sz tf v p R s s' → Q p s') :
    Det.Ends E (frameFor K ⟨sz, root⟩ root (pgsize * v)) s Q := by
  have hsz := hsp.size
  have hdiv := mul_div_pgsize v
  unfold frameFor
  by_cases hu : UserPage s.mem root v
  · have hlt := hsp.user_lt hv hu
    have hpg := hsp.pgs_le
    have hmem := hsp.user_frame hv hu
    have hfr := hg.frame _ (.inr (Multiset.mem_add.2 (.inr (Multiset.mem_add.2 (.inl
      (Multiset.mem_add.2 (.inl hmem)))))))
    have hne : pte2pa (pte s.mem root v) ≠ 0 := by
      have h₁ := hfr.low
      have h₂ := K.kend_ge
      omega
    have hcalls : calls s.mem root {v} = 0 := by
      rw [← insert_empty_eq, calls_mapped hu.valid, calls_empty]
    have hmax : pgsize * v < maxva := by
      simp only [tfPage, trapframe, trampoline, pgsize, maxva] at *
      omega
    have hwalk : walkaddr root (pgsize * v) s = .ok (pte2pa (pte s.mem root v), s) := by
      rw [walkaddr_eq, hdiv, if_pos ⟨hmax, hu.valid, hu.user⟩]
    refine .bind (.of_eq hwalk ?_)
    rw [if_neg hne]
    refine .pure (hok _ s hne ?_ ?_ (entered_old hsp hg hu))
    · unfold Usable
      rw [if_pos hu.valid]
      exact ⟨hu.user, nofun⟩
    · rw [hcalls]
      exact ⟨Nat.zero_le _, fun i hi => absurd hi (by omega)⟩
  · have hwalk : walkaddr root (pgsize * v) s = .ok (0, s) := by
      rw [walkaddr_eq, hdiv, if_neg fun h => hu ⟨h.2.1, h.2.2⟩]
    refine .bind (.of_eq hwalk ?_)
    rw [if_pos rfl]
    have hno : Usable false s.mem root sz v →
        pgsize * v < sz ∧ (pte s.mem root v).testBit vBit = false := fun h => by
      unfold Usable at h
      split at h
      · next hval => exact absurd ⟨hval, h.1⟩ hu
      · next hval => exact ⟨h, Bool.eq_false_iff.2 hval⟩
    refine vmfault_ends hg hsp.table (by simp only [trapframe, trampoline, pgsize, maxva] at *; omega)
      (fun s' h hm => ?_) fun p s' hlt hval htk hav hn => ?_
    · rw [hdiv] at h
      exact hfail s' (fun hx => h ⟨(hno hx.1).1, (hno hx.1).2, hx.2⟩) hm
    · rw [hdiv] at hval htk hav hn
      refine hok p s' ?_ ?_ hav (entered_new hsp hg hv hlt hval htk hn)
      · have h₁ := hn.frame.low
        have h₂ := K.kend_ge
        omega
      · unfold Usable
        rw [hval, if_neg (by decide)]
        exact hlt

end FrameFor

end Xv6.Vm
