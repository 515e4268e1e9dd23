import Xv6.Vm.Fault

/-!
# Copies between the kernel and a process

`copyout`, `copyin` and `copyinstr` from any address space. The first two stop at the first page that
they may not use or cannot map (`Extent`), and until then they change nothing but the bytes they copy
(`Copied`); `copyinstr` only reads, and stops at a NUL or at the first page that is not there.
-/

namespace Xv6.Vm

open Transfer

variable {K : Layout} {E : Halt → Prop} {s s' s'' : Phys} {R : Multiset ℕ} {root sz tf a n v p : ℕ}
  {l : List UInt8} {f g : ℕ → Option UInt8} {P P' : Finset ℕ} {write : Bool}

/-- Bytes over what was seen. -/
def put (a : ℕ) (l : List UInt8) (f : ℕ → Option UInt8) : ℕ → Option UInt8 := fun b =>
  if a ≤ b ∧ b < a + l.length then l[b - a]? else f b

theorem put_nil : put a [] f = f := by
  funext b
  exact if_neg (by simp)

theorem put_congr {b : ℕ} (h : f b = g b) : put a l f b = put a l g b := by
  unfold put
  rw [h]

theorem put_append {l' : List UInt8} : put (a + l.length) l' (put a l f) = put a (l ++ l') f := by
  funext b
  unfold put
  rw [List.length_append]
  by_cases h₁ : a ≤ b ∧ b < a + l.length
  · rw [if_neg (by omega), if_pos h₁, if_pos (by omega), List.getElem?_append_left (by omega)]
  · rw [if_neg h₁]
    by_cases h₂ : a + l.length ≤ b ∧ b < a + l.length + l'.length
    · rw [if_pos h₂, if_pos (by omega), List.getElem?_append_right (by omega), Nat.sub_add_eq]
    · rw [if_neg h₂, if_neg (by omega)]

/-- The kernel has used the pages of `P` for the process, which sees `f` then. -/
structure Copied (K : Layout) (root sz tf : ℕ) (R : Multiset ℕ) (P : Finset ℕ)
    (f : ℕ → Option UInt8) (s s' : Phys) : Prop where
  space : Space K s'.mem root sz tf
  good : Good K s' (tables s'.mem root + (frames s'.mem root sz tf + R))
  words : ∀ v < 2 ^ 20, (pte s.mem root v).testBit vBit = true → pte s'.mem root v = pte s.mem root v
  fresh : ∀ v < 2 ^ 20, (pte s.mem root v).testBit vBit = false →
    (pte s'.mem root v).testBit vBit = true → v ∈ P ∧ ∃ p ∈ s.freelist, K.Frame p ∧
      pte s'.mem root v = entry p (pteW ||| pteU ||| pteR)
  looks : ∀ b < 2 ^ 32, seen s'.mem root sz b = f b
  free : ∀ q ∈ s'.freelist, q ∈ s.freelist
  held : ∀ q ∈ tables s'.mem root, q ∈ s.freelist ∨ q ∈ tables s.mem root
  kept : ∀ x, pgrounddown x ∉ s.freelist → pgrounddown x ∉ tables s.mem root →
    (∀ v ∈ P, v < 2 ^ 20 → UserPage s.mem root v → pgrounddown x ≠ pte2pa (pte s.mem root v)) →
    s'.mem x = s.mem x

namespace Copied

theorem trans (h : Copied K root sz tf R P f s s') (h' : Copied K root sz tf R P' g s' s'') :
    Copied K root sz tf R (P ∪ P') g s s'' := by
  refine ⟨h'.space, h'.good, fun v hv hval => ?_, fun v hv hno hval => ?_, h'.looks,
    fun q hq => h.free q (h'.free q hq), fun q hq => ?_, fun x hF hT hU => ?_⟩
  · have h₁ := h.words v hv hval
    rw [h'.words v hv (by rw [h₁]; exact hval), h₁]
  · cases hmid : (pte s'.mem root v).testBit vBit with
    | true =>
      obtain ⟨hP, p, hp, hfr, he⟩ := h.fresh v hv hno hmid
      exact ⟨Finset.mem_union_left _ hP, p, hp, hfr, (h'.words v hv hmid).trans he⟩
    | false =>
      obtain ⟨hP, p, hp, hfr, he⟩ := h'.fresh v hv hmid hval
      exact ⟨Finset.mem_union_right _ hP, p, h.free p hp, hfr, he⟩
  · exact (h'.held q hq).elim (fun hx => .inl (h.free q hx)) (h.held q)
  · have h₁ := h.kept x hF hT fun v hv => hU v (Finset.mem_union_left _ hv)
    rw [← h₁]
    refine h'.kept x (fun hx => hF (h.free _ hx)) (fun hx => (h.held _ hx).elim hF hT)
      fun v hv hlt hu => ?_
    cases hval : (pte s.mem root v).testBit vBit with
    | true =>
      have hw := h.words v hlt hval
      rw [hw]
      exact hU v (Finset.mem_union_right _ hv) hlt ⟨hval, by rw [← hw]; exact hu.user⟩
    | false =>
      obtain ⟨-, p, hp, hfr, he⟩ := h.fresh v hlt hval hu.valid
      rw [he, pte2pa_entry hfr.aligned (by decide)]
      rintro rfl
      exact hF hp

theorem cast (h : Copied K root sz tf R P f s s') (hP : P ⊆ P') (hf : ∀ b < 2 ^ 32, f b = g b) :
    Copied K root sz tf R P' g s s' :=
  ⟨h.space, h.good, h.words, fun v hv h₁ h₂ => (h.fresh v hv h₁ h₂).imp_left fun h => hP h,
    fun b hb => (h.looks b hb).trans (hf b hb), h.free, h.held,
    fun x hF hT hU => h.kept x hF hT fun v hv => hU v (hP hv)⟩

end Copied

section Steps

variable (hsp : Space K s.mem root sz tf)
  (hg : Good K s (tables s.mem root + (frames s.mem root sz tf + R)))

include hsp hg

/-- Only free pages have changed. -/
theorem copied_idle (hm : s.Moves s' 0 0) :
    Copied K root sz tf R ∅ (seen s.mem root sz) s s' := by
  have hq : ∀ x, pgrounddown x ∈ tables s.mem root → s'.mem x = s.mem x := fun x hx =>
    Good.quiet (hg.cast (zero_add _).symm) hm hx
  have hal := hg.apart.aligned
  have hpte : ∀ v < 2 ^ 20, pte s'.mem root v = pte s.mem root v := fun v hv => pte_congr hal hq hv
  have htab := tables_congr hal hq
  have hfree : ∀ q, q ∈ s'.freelist ↔ q ∈ s.freelist := fun q => by
    have h := hm.mem_iff (p := q)
    simpa using h
  refine ⟨hsp.congr hal hq, ?_, fun v hv _ => hpte v hv, fun v hv h₁ h₂ => ?_, fun b hb => ?_,
    fun q hq => (hfree q).1 hq, fun q hq => .inr (htab ▸ hq), fun x hF _ _ => hm.same x hF (by simp)⟩
  · rw [htab, hsp.frames_congr hal hq]
    exact ((hg.cast (zero_add _).symm).moves hm).cast (zero_add _)
  · rw [hpte v hv, h₁] at h₂
    cases h₂
  · have hpage : b / pgsize < 2 ^ 20 := by
      simp only [pgsize]
      omega
    unfold seen
    rw [hpte _ hpage]
    split
    · next hval => rw [hsp.byte_kept hg ((hm.frame _).cast (zero_add _) rfl) hpage hval]
    · rfl

omit hsp in
theorem Entered.copied (h : Entered K root sz tf v p R s s') :
    Copied K root sz tf R {v} (seen s.mem root sz) s s' := by
  refine ⟨h.space, h.good, fun u hu hval => ?_, fun u hu h₁ h₂ => ?_, h.looks, fun q hq => ?_,
    fun q hq => h.held q (.inr hq), fun x hF hT _ => h.kept x hF hT⟩
  · by_cases huv : u = v
    · subst huv
      rw [h.old hval]
    · exact h.words u hu huv
  · by_cases huv : u = v
    · subst huv
      obtain ⟨he, hp⟩ := h.new h₁
      exact ⟨Finset.mem_singleton_self _, p, hp, hg.frame p (.inl hp), he⟩
    · rw [h.words u hu huv, h₁] at h₂
      cases h₂
  · rw [h.took.freelist] at hq
    exact List.mem_of_mem_drop hq

/-- A frame of the process is mapped at one page. -/
theorem frame_ne (hv : v < 2 ^ 20) (hu : UserPage s.mem root v) {u : ℕ} (hlt : u < 2 ^ 20)
    (hval : (pte s.mem root u).testBit vBit = true) (hne : u ≠ v) :
    pte2pa (pte s.mem root u) ≠ pte2pa (pte s.mem root v) := by
  have hmem := hsp.user_frame hv hu
  have hn := (Multiset.nodup_add.1 (Multiset.nodup_add.1 hg.held_nodup).2.1).1
  unfold frames at hn
  intro he
  obtain h | rfl | rfl := hsp.only u hlt hval
  · refine hne (users_inj (Multiset.nodup_add.1 hn).1 ⟨Nat.zero_le _, h⟩
      ⟨Nat.zero_le _, hsp.user_lt hv hu⟩ (p := pte2pa (pte s.mem root v)) ?_ ?_)
    · rw [frameOf_valid hval, he]
      exact Multiset.mem_singleton_self _
    · rw [frameOf_valid hu.valid]
      exact Multiset.mem_singleton_self _
  · rw [hsp.frame.frame] at he
    exact Multiset.disjoint_left.1 (Multiset.nodup_add.1 hn).2.2 hmem
      (he ▸ Multiset.mem_singleton_self _)
  · rw [hsp.tramp.frame] at he
    have hfr := hg.frame _ (.inr (Multiset.mem_add.2 (.inr (Multiset.mem_add.2 (.inl
      (Multiset.mem_add.2 (.inl hmem)))))))
    have h₁ := hfr.low
    have h₂ := K.tramp_le
    simp only [pgsize] at h₂
    omega

omit hsp hg in
/-- A store to a page. -/
theorem write_of_ne {off q x : ℕ} (hq : q % pgsize = 0) (hoff : off + l.length ≤ pgsize)
    (hx : pgrounddown x ≠ q) : s.mem.write (q + off) l x = s.mem x := if_neg (by
  simp only [pgrounddown, pgsize] at *
  omega)

/-- A store to a page of the process is not one to its table. -/
theorem poke_quiet (off : ℕ) {x : ℕ} (hv : v < 2 ^ 20) (hu : UserPage s.mem root v)
    (hoff : off + l.length ≤ pgsize) (hx : pgrounddown x ∈ tables s.mem root) :
    s.mem.write (pte2pa (pte s.mem root v) + off) l x = s.mem x :=
  write_of_ne (pte2pa_aligned _) hoff fun e =>
    Multiset.disjoint_left.1 (Multiset.nodup_add.1 hg.held_nodup).2.2 hx
      (Multiset.mem_add.2 (.inl (Multiset.mem_add.2 (.inl (e ▸ hsp.user_frame hv hu)))))

/-- Bytes are stored in a page of the process. -/
theorem copied_poke (off : ℕ) (hv : v < 2 ^ 20) (hu : UserPage s.mem root v)
    (hoff : off + l.length ≤ pgsize) :
    Copied K root sz tf R {v} (put (pgsize * v + off) l (seen s.mem root sz)) s
      { s with mem := s.mem.write (pte2pa (pte s.mem root v) + off) l } := by
  have hkeep : ∀ x, pgrounddown x ∈ tables s.mem root →
      s.mem.write (pte2pa (pte s.mem root v) + off) l x = s.mem x := fun x hx =>
    poke_quiet hsp hg off hv hu hoff hx
  obtain ⟨q, hq⟩ : ∃ q, q = pte2pa (pte s.mem root v) := ⟨_, rfl⟩
  rw [← hq] at hkeep ⊢
  have hqal : q % pgsize = 0 := hq ▸ pte2pa_aligned _
  have hal := hg.apart.aligned
  have hpte : ∀ u < 2 ^ 20, pte (s.mem.write (q + off) l) root u = pte s.mem root u := fun u hu =>
    pte_congr hal hkeep hu
  have htab := tables_congr hal hkeep
  refine ⟨hsp.congr hal hkeep, ?_, fun u hu _ => hpte u hu, fun u hu h₁ h₂ => ?_, fun b hb => ?_,
    fun _ h => h, fun x hx => .inr (htab ▸ hx), fun x _ _ hU => write_of_ne hqal hoff ?_⟩
  · simp only
    rw [htab, hsp.frames_congr hal hkeep]
    exact ⟨hg.nodup, hg.frame⟩
  · simp only at h₂
    rw [hpte u hu, h₁] at h₂
    cases h₂
  · have hpage : b / pgsize < 2 ^ 20 := by
      simp only [pgsize]
      omega
    have hmod := Nat.mod_lt b (show 0 < pgsize by decide)
    unfold seen put
    simp only
    rw [hpte _ hpage]
    by_cases hbv : b / pgsize = v
    · rw [hbv, if_pos hu.valid, ← hq]
      unfold ByteMem.write
      by_cases hin : off ≤ b % pgsize ∧ b % pgsize < off + l.length
      · rw [if_pos (by omega), if_pos (by simp only [pgsize] at *; omega), List.getD_eq_getElem?_getD,
          show q + b % pgsize - (q + off) = b - (pgsize * v + off) by simp only [pgsize] at *; omega,
          List.getElem?_eq_getElem (by simp only [pgsize] at *; omega)]
        rfl
      · rw [if_neg (by omega), if_neg (by simp only [pgsize] at *; omega), if_pos hu.valid]
    · rw [if_neg (show ¬ (pgsize * v + off ≤ b ∧ b < pgsize * v + off + l.length) by
        simp only [pgsize] at *
        omega)]
      split
      · next hval =>
        rw [write_of_ne hqal hoff]
        rw [pgrounddown_pte2pa, hq]
        exact frame_ne hsp hg hv hu hpage hval hbv
      · rfl
  · rw [hq]
    exact hU v (Finset.mem_singleton_self v) hv hu

end Steps

/-! ## How far a copy gets -/

/-- The pages of `n` bytes from `a` on. -/
def pagesOf (a n : ℕ) : Finset ℕ := (Finset.Ico a (a + n)).image (· / pgsize)

theorem mem_pagesOf : v ∈ pagesOf a n ↔ ∃ b, a ≤ b ∧ b < a + n ∧ b / pgsize = v := by
  unfold pagesOf
  rw [Finset.mem_image]
  constructor
  · rintro ⟨b, hb, he⟩
    exact ⟨b, (Finset.mem_Ico.1 hb).1, (Finset.mem_Ico.1 hb).2, he⟩
  · rintro ⟨b, h₁, h₂, he⟩
    exact ⟨b, Finset.mem_Ico.2 ⟨h₁, h₂⟩, he⟩

theorem pagesOf_zero : pagesOf a 0 = ∅ := by
  unfold pagesOf
  rw [Nat.add_zero, Finset.Ico_self, Finset.image_empty]

/-- Every page of the `n` bytes from `a` on may be used, and those that are not mapped can be. -/
structure Reach (write : Bool) (s : Phys) (root sz a n : ℕ) : Prop where
  usable : ∀ b, a ≤ b → b < a + n → Usable write s.mem root sz (b / pgsize)
  avail : Avail s (calls s.mem root (pagesOf a n))

/-- Of `len` bytes from `a` on, `n` can be used and no more. -/
structure Extent (write : Bool) (s : Phys) (root sz a len n : ℕ) : Prop where
  le : n ≤ len
  reach : Reach write s root sz a n
  stop : n < len → ¬ Reach write s root sz a (n + 1)

theorem Reach.zero : Reach write s root sz a 0 := by
  refine ⟨fun b h₁ h₂ => absurd h₂ (by omega), ?_⟩
  rw [pagesOf_zero, calls_empty]
  exact ⟨Nat.zero_le _, fun i hi => absurd hi (by omega)⟩

theorem Usable.of_write (h : Usable write s.mem root sz v) : Usable false s.mem root sz v := by
  unfold Usable at *
  split at h
  · next hval =>
    rw [if_pos hval]
    exact ⟨h.1, nofun⟩
  · next hval =>
    rw [if_neg hval]
    exact h

/-- Addresses that can be used lie below the size: on the way to a higher one there is a page that
cannot. -/
theorem Space.reach_lt {len b : ℕ} (hsp : Space K s.mem root sz tf) (ha : a < 2 ^ 32)
    (h : ∀ b, a ≤ b → b < a + len → Usable write s.mem root sz (b / pgsize)) (hab : a ≤ b)
    (hb : b < a + len) : b / pgsize < pgs sz := by
  have hpg := hsp.pgs_le_num
  by_cases hlt : b < 2 ^ 32
  · exact hsp.usable_lt (by simp only [pgsize]; omega) (h b hab hb)
  · by_cases ha' : a < 2 ^ 31
    · have hbad := hsp.usable_lt (v := 2 ^ 31 / pgsize) (by decide) (h (2 ^ 31) (by omega) (by omega))
      simp only [pgsize] at hbad
      omega
    · have hbad := hsp.usable_lt (by simp only [pgsize]; omega) (h a (Nat.le_refl _) (by omega))
      simp only [pgsize] at hbad
      omega

/-- The pages of bytes that begin in page number `v`. -/
theorem pagesOf_succ {n₁ n' : ℕ} (hv : a / pgsize = v) (hn : 0 < n₁)
    (hin : a + n₁ ≤ pgsize * (v + 1)) : pagesOf a (n₁ + n') = insert v (pagesOf (a + n₁) n') := by
  ext u
  rw [Finset.mem_insert, mem_pagesOf, mem_pagesOf]
  constructor
  · rintro ⟨b, h₁, h₂, rfl⟩
    by_cases hb : b < a + n₁
    · left
      simp only [pgsize] at *
      omega
    · exact .inr ⟨b, by omega, by omega, rfl⟩
  · rintro (rfl | ⟨b, h₁, h₂, rfl⟩)
    · exact ⟨a, Nat.le_refl _, by omega, hv⟩
    · exact ⟨b, by omega, by omega, rfl⟩

theorem pagesOf_one : pagesOf a 1 = {a / pgsize} := by
  have h : pagesOf a (1 + 0) = insert (a / pgsize) (pagesOf (a + 1) 0) :=
    pagesOf_succ rfl Nat.zero_lt_one (by simp only [pgsize]; omega)
  rwa [pagesOf_zero, insert_empty_eq] at h

theorem Reach.first (h : Reach write s root sz a 1) :
    Usable write s.mem root sz (a / pgsize) ∧ Avail s (calls s.mem root {a / pgsize}) := by
  have hav := h.avail
  rw [pagesOf_one] at hav
  exact ⟨h.usable a (Nat.le_refl _) (by omega), hav⟩

section Page

variable {n₁ n' len : ℕ} (h : Passed root v s s') (hsp : Space K s.mem root sz tf)
  (hsp' : Space K s'.mem root sz tf)
  (ha : a < 2 ^ 32) (hv : a / pgsize = v) (hn : 0 < n₁) (hin : a + n₁ ≤ pgsize * (v + 1))
  (hu : Usable write s.mem root sz v) (hav : Avail s (calls s.mem root {v}))

include h hsp hsp' ha hv hn hin hu hav

/-- The bytes of one page, and those behind it. -/
theorem Passed.reach (hnext : n' = 0 ∨ a + n₁ = pgsize * (v + 1)) :
    Reach write s root sz a (n₁ + n') ↔ Reach write s' root sz (a + n₁) n' := by
  have hpg := hsp.pgs_le_num
  have hvlt : v < pgs sz := hsp.usable_lt (by simp only [pgsize] at *; omega) hu
  have ha' : a + n₁ < 2 ^ 32 := by
    simp only [pgsize] at *
    omega
  have hout : ∀ b, a + n₁ ≤ b → b < a + n₁ + n' → b / pgsize ≠ v := fun b h₁ h₂ => by
    simp only [pgsize] at *
    omega
  -- a page behind is as before
  have hsame : ∀ b, a + n₁ ≤ b → b < a + n₁ + n' → b / pgsize < 2 ^ 20 →
      (Usable write s'.mem root sz (b / pgsize) ↔ Usable write s.mem root sz (b / pgsize)) :=
    fun b h₁ h₂ h₃ => by
      unfold Usable
      rw [h.words _ h₃ (hout b h₁ h₂)]
  have hcalls : (∀ b, a + n₁ ≤ b → b < a + n₁ + n' → b / pgsize < 2 ^ 20) →
      calls s.mem root (pagesOf a (n₁ + n')) =
        calls s.mem root {v} + calls s'.mem root (pagesOf (a + n₁) n') := fun hb => by
    rw [pagesOf_succ hv hn hin]
    refine h.rest _ (fun hx => ?_) fun u hx => ?_
    · obtain ⟨b, h₁, h₂, h₃⟩ := mem_pagesOf.1 hx
      exact hout b h₁ h₂ h₃
    · obtain ⟨b, h₁, h₂, rfl⟩ := mem_pagesOf.1 hx
      exact hb b h₁ h₂
  constructor
  · intro hr
    have hb : ∀ b, a + n₁ ≤ b → b < a + n₁ + n' → b / pgsize < 2 ^ 20 := fun b h₁ h₂ => by
      have := hsp.reach_lt ha hr.usable (b := b) (by omega) (by omega)
      omega
    have hav' := hr.avail
    rw [hcalls hb] at hav'
    exact ⟨fun b h₁ h₂ => (hsame b h₁ h₂ (hb b h₁ h₂)).2 (hr.usable b (by omega) (by omega)),
      (h.took.avail_add.1 hav').2⟩
  · intro hr
    have hb : ∀ b, a + n₁ ≤ b → b < a + n₁ + n' → b / pgsize < 2 ^ 20 := fun b h₁ h₂ => by
      have := hsp'.reach_lt ha' hr.usable h₁ h₂
      omega
    refine ⟨fun b h₁ h₂ => ?_, ?_⟩
    · by_cases hlt : b < a + n₁
      · rw [show b / pgsize = v by simp only [pgsize] at *; omega]
        exact hu
      · exact (hsame b (by omega) (by omega) (hb b (by omega) (by omega))).1
          (hr.usable b (by omega) (by omega))
    · rw [hcalls hb]
      exact h.took.avail_add.2 ⟨hav, hr.avail⟩

omit hsp' hu hav in
/-- What lies behind the first bytes of a page can still be used when the page is there. -/
theorem Passed.tail (hval : (pte s'.mem root v).testBit vBit = true)
    (hu' : Usable write s'.mem root sz v) (hr : Reach write s root sz a (n₁ + n')) :
    Reach write s' root sz (a + n₁) n' := by
  have hpg := hsp.pgs_le_num
  have hb : ∀ b, a + n₁ ≤ b → b < a + n₁ + n' → b / pgsize < 2 ^ 20 := fun b h₁ h₂ => by
    have := hsp.reach_lt ha hr.usable (b := b) (by omega) (by omega)
    omega
  refine ⟨fun b h₁ h₂ => ?_, ?_⟩
  · by_cases hbv : b / pgsize = v
    · rw [hbv]
      exact hu'
    · have hus := hr.usable b (by omega) (by omega)
      unfold Usable at hus ⊢
      rw [h.words _ (hb b h₁ h₂) hbv]
      exact hus
  · -- the page itself takes no calls any more
    have hcalls := h.rest ((pagesOf (a + n₁) n').erase v) (Finset.notMem_erase _ _) fun u hu₁ => by
      obtain ⟨b, h₁, h₂, rfl⟩ := mem_pagesOf.1 (Finset.mem_of_mem_erase hu₁)
      exact hb b h₁ h₂
    have hins : insert v ((pagesOf (a + n₁) n').erase v) = insert v (pagesOf (a + n₁) n') := by
      ext u
      simp only [Finset.mem_insert, Finset.mem_erase]
      tauto
    have hav' := hr.avail
    rw [pagesOf_succ hv hn hin, ← hins, hcalls] at hav'
    have hrest := (h.took.avail_add.1 hav').2
    rwa [← calls_mapped hval, hins, calls_mapped hval] at hrest

theorem Passed.extent (hlen : n₁ ≤ len) (hnext : len = n₁ ∨ a + n₁ = pgsize * (v + 1))
    (he : Extent write s' root sz (a + n₁) (len - n₁) n') :
    Extent write s root sz a len (n₁ + n') := by
  have hle := he.le
  refine ⟨by omega, ?_, fun hlt hr => he.stop (by omega) ?_⟩
  · exact (h.reach hsp hsp' ha hv hn hin hu hav (by omega)).2 he.reach
  · rw [Nat.add_assoc] at hr
    exact (h.reach hsp hsp' ha hv hn hin hu hav (by omega)).1 hr

end Page

theorem Extent.nil : Extent write s root sz a 0 0 := ⟨Nat.zero_le _, .zero, fun h => absurd h (by omega)⟩

theorem Extent.stuck {len : ℕ} (h : ¬ Reach write s root sz a 1) :
    Extent write s root sz a len 0 := ⟨Nat.zero_le _, .zero, fun _ => h⟩

/-- A copy goes on at the next page, unless nothing is left. -/
theorem Extent.from_page {n₁ len : ℕ} (hnext : len = n₁ ∨ a + n₁ = pgsize * (v + 1))
    (h : Extent write s root sz (pgsize * (v + 1)) (len - n₁) n) :
    Extent write s root sz (a + n₁) (len - n₁) n ∧
      pagesOf (pgsize * (v + 1)) n = pagesOf (a + n₁) n ∧ (n = 0 ∨ pgsize * (v + 1) = a + n₁) := by
  obtain rfl | he := hnext
  · have hle := h.le
    obtain rfl : n = 0 := by omega
    rw [Nat.sub_self]
    exact ⟨.nil, by rw [pagesOf_zero, pagesOf_zero], .inl rfl⟩
  · rw [he]
    exact ⟨h, rfl, .inr rfl⟩

/-- The page that a copy loop starts at. -/
theorem exists_page (ha : a < 2 ^ 32) : ∃ v, v = a / pgsize ∧ v < 2 ^ 20 ∧ pgrounddown a = pgsize * v ∧
    a - pgsize * v = a % pgsize := by
  refine ⟨_, rfl, ?_, by rw [pgrounddown, Nat.mul_comm], ?_⟩ <;>
    · simp only [pgsize]
      omega

/-- The bytes of the first page, which a copy loop does in one turn. -/
theorem exists_turn {len : ℕ} (hv : v = a / pgsize) (hlen : 0 < len) :
    ∃ n, n = min (pgsize - a % pgsize) len ∧ 0 < n ∧ n ≤ len ∧ a + n ≤ pgsize * (v + 1) ∧
      (len = n ∨ a + n = pgsize * (v + 1)) := by
  refine ⟨_, rfl, ?_⟩
  simp only [pgsize] at *
  omega

/-! ## `copyout` -/

/-- The loop of `copyout`. -/
theorem copyoutLoop_ends {k : ℕ} {src : List UInt8} (hsp : Space K s.mem root sz tf)
    (hg : Good K s (tables s.mem root + (frames s.mem root sz tf + R))) (ha : a < 2 ^ 32)
    (hk : 2 ^ 20 < k + a / pgsize) :
    Det.Ends E (copyoutLoop K ⟨sz, root⟩ root k a src) s fun r s' => ∃ n,
      Extent true s root sz a src.length n ∧ r = decide (n = src.length) ∧
      Copied K root sz tf R (pagesOf a n) (put a (src.take n) (seen s.mem root sz)) s s' ∧
      (n = src.length → (n = 0 → s' = s) ∧
        ∀ j, Reach true s root sz a (n + j) → Reach true s' root sz (a + n) j) := by
  induction k generalizing s a src with
  | zero =>
    simp only [pgsize] at hk
    omega
  | succ k ih =>
    obtain ⟨v, hv, hv20, hdown, hoff⟩ := exists_page ha
    have hpg := hsp.pgs_le_num
    unfold copyoutLoop
    by_cases hlen : src.length > 0
    · -- nothing more is copied
      have stuck : ∀ s', ¬ Reach true s root sz a 1 → s.Moves s' 0 0 → ∃ n,
          Extent true s root sz a src.length n ∧ false = decide (n = src.length) ∧
          Copied K root sz tf R (pagesOf a n) (put a (src.take n) (seen s.mem root sz)) s s' ∧
          (n = src.length → (n = 0 → s' = s) ∧
            ∀ j, Reach true s root sz a (n + j) → Reach true s' root sz (a + n) j) :=
        fun s' hno hm => by
          refine ⟨0, .stuck hno, (decide_eq_false (by omega)).symm, ?_, fun he => by omega⟩
          rw [pagesOf_zero, List.take_zero, put_nil]
          exact copied_idle hsp hg hm
      rw [if_pos hlen, hdown, hoff]
      by_cases hmax : pgsize * v ≥ maxva
      · rw [if_pos hmax]
        refine .pure (stuck s (fun hr => ?_) .refl)
        have := hsp.usable_lt (hv ▸ hv20) hr.first.1
        simp only [pgsize, maxva] at *
        omega
      rw [if_neg hmax]
      refine .bind (frameFor_ends hsp hg hv20 (fun s₁ hno hm => ?_) fun p s₁ hp hus hav he => ?_)
      · rw [if_pos rfl]
        refine .pure (stuck s₁ (fun hr => hno ?_) hm)
        rw [hv]
        exact ⟨hr.first.1.of_write, hr.first.2⟩
      rw [if_neg hp]
      obtain ⟨t, ht⟩ := Option.ne_none_iff_exists'.1 (dir_of_valid he.page.valid)
      have hwalk : walk root (pgsize * v) false s₁ = .ok (some (t + 4 * (v % 1024)), s₁) := by
        rw [walk_read (Nat.lt_of_not_le hmax), mul_div_pgsize, ht]
        rfl
      refine .bind (.of_eq hwalk (.bind (.of_eq rfl ?_)))
      rw [Option.getD_some, ld_of_dir ht]
      cases hw : (pte s₁.mem root v).testBit wBit with
      | false =>
        -- a page that has just been mapped has `PTE_W`
        have hold : (pte s.mem root v).testBit vBit = true := by
          by_contra hno
          obtain ⟨hnew, hfree⟩ := he.new (Bool.eq_false_iff.2 hno)
          rw [hnew, entry_testBit (hg.frame p (.inl hfree)).aligned (by decide) (by decide)] at hw
          exact absurd hw (by decide)
        obtain rfl := he.old hold
        refine .pure (stuck s₁ (fun hr => ?_) .refl)
        have hbad := hr.first.1
        rw [← hv] at hbad
        unfold Usable at hbad
        rw [if_pos hold, hw] at hbad
        exact absurd (hbad.2 rfl) (by decide)
      | true =>
        have husw : Usable true s.mem root sz v := by
          unfold Usable at hus ⊢
          by_cases hval : (pte s.mem root v).testBit vBit
          · rw [if_pos hval] at hus ⊢
            obtain rfl := he.old hval
            exact ⟨hus.1, fun _ => hw⟩
          · rw [if_neg hval] at hus ⊢
            exact hus
        have hvlt := hsp.usable_lt hv20 hus
        obtain ⟨n₁, hn₁, hn, hle, hin, hnext⟩ := exists_turn hv hlen
        have htake : (src.take n₁).length = n₁ := by rw [List.length_take]; omega
        simp only [Bool.not_true, Bool.false_eq_true, if_false, ← hn₁]
        have hpoke := copied_poke he.space he.good (a % pgsize) (l := src.take n₁) hv20 he.page
          (by rw [htake]; simp only [pgsize] at *; omega)
        rw [he.frame, show pgsize * v + a % pgsize = a by simp only [pgsize] at *; omega] at hpoke
        have hpass := he.toPassed.congr he.good.apart.aligned fun x hx =>
          poke_quiet he.space he.good (a % pgsize) (l := src.take n₁) hv20 he.page
            (by rw [htake]; simp only [pgsize] at *; omega) hx
        rw [he.frame] at hpass
        refine .bind (.of_eq rfl ?_)
        rw [nextPage_mul (by omega)]
        refine .mono (ih hpoke.space hpoke.good (by simp only [pgsize] at *; omega)
          (by simp only [pgsize] at *; omega)) fun r s₂ hrest => ?_
        obtain ⟨n', hext, hr, hc, htail⟩ := hrest
        rw [List.length_drop] at hext hr htail
        obtain ⟨hext', hpages, hfrom⟩ := hext.from_page hnext
        refine ⟨n₁ + n', hpass.extent hsp hpoke.space ha hv.symm hn hin husw hav hle hnext hext', ?_, ?_,
          fun hall => ⟨fun h0 => by omega, fun j hreach => ?_⟩⟩
        · rw [hr]
          exact decide_eq_decide.2 (by omega)
        · refine (((he.copied hg).trans hpoke).trans hc).cast ?_ fun b hb => ?_
          · rw [pagesOf_succ hv.symm hn hin, Finset.union_self, Finset.insert_eq, hpages]
          · rw [put_congr (hpoke.looks b hb), List.take_add]
            obtain rfl | h := hfrom
            · rw [List.take_zero, put_nil, List.append_nil]
              exact put_congr (he.looks b hb)
            · rw [h, show a + n₁ = a + (src.take n₁).length by rw [htake], put_append]
              exact put_congr (he.looks b hb)
        · have hword := hpoke.words v hv20 he.page.valid
          simp only at hword
          have hval' := hword ▸ he.page.valid
          rw [Nat.add_assoc] at hreach
          have hmid := hpass.tail hsp ha hv.symm hn hin hval' (by
            unfold Usable
            rw [if_pos hval', hword]
            exact ⟨he.page.user, fun _ => hw⟩) hreach
          obtain ⟨hsame, hmore⟩ := htail (by omega)
          rw [← Nat.add_assoc]
          obtain h0 | hbound := hfrom
          · rw [hsame h0]
            simpa only [h0, Nat.zero_add, Nat.add_zero] using hmid
          · rw [hbound] at hmore
            exact hmore j hmid
    · rw [if_neg hlen]
      have h0 : src.length = 0 := by omega
      refine .pure ⟨0, ⟨Nat.zero_le _, .zero, fun h => absurd h (by omega)⟩,
        (decide_eq_true h0.symm).symm, ?_, fun _ => ⟨fun _ => rfl, fun j hreach => ?_⟩⟩
      · rw [pagesOf_zero, List.take_zero, put_nil]
        exact copied_idle hsp hg .refl
      · rwa [Nat.zero_add] at hreach

/-! ## `copyin` -/

/-- The bytes of a list are those that the process sees from `a` on. -/
def Shows (m : ByteMem) (root sz a : ℕ) (l : List UInt8) : Prop :=
  ∀ i < l.length, seen m root sz (a + i) = l[i]?

theorem Shows.append {m : ByteMem} {l' : List UInt8} (h : Shows m root sz a l)
    (h' : Shows m root sz (a + l.length) l') : Shows m root sz a (l ++ l') := by
  intro i hi
  rw [List.length_append] at hi
  by_cases hlt : i < l.length
  · rw [List.getElem?_append_left hlt]
    exact h i hlt
  · rw [List.getElem?_append_right (Nat.le_of_not_lt hlt), ← h' (i - l.length) (by omega)]
    congr 1
    omega

/-- What is read from a page of the process. -/
theorem shows_read {k : ℕ} (sz : ℕ) (hu : UserPage s.mem root v) (hv : a / pgsize = v)
    (hin : a + k ≤ pgsize * (v + 1)) :
    Shows s.mem root sz a (s.mem.read (pte2pa (pte s.mem root v) + a % pgsize) k) := by
  intro i hi
  rw [ByteMem.length_read] at hi
  have hpage : (a + i) / pgsize = v := by
    simp only [pgsize] at *
    omega
  have hmod : (a + i) % pgsize = a % pgsize + i := by
    simp only [pgsize] at *
    omega
  unfold seen
  rw [hpage, if_pos hu.valid, hmod, ByteMem.read_getElem? hi, ← Nat.add_assoc]

/-- The loop of `copyin`. -/
theorem copyinLoop_ends {k len : ℕ} {acc : List UInt8} (hsp : Space K s.mem root sz tf)
    (hg : Good K s (tables s.mem root + (frames s.mem root sz tf + R))) (ha : a < 2 ^ 32)
    (hk : 2 ^ 20 < k + a / pgsize) :
    Det.Ends E (copyinLoop K ⟨sz, root⟩ root k a len acc) s fun r s' => ∃ l,
      Extent false s root sz a len l.length ∧ r = (decide (l.length = len), acc ++ l) ∧
      Shows s.mem root sz a l ∧ Copied K root sz tf R (pagesOf a l.length) (seen s.mem root sz) s s' := by
  induction k generalizing s a len acc with
  | zero =>
    simp only [pgsize] at hk
    omega
  | succ k ih =>
    obtain ⟨v, hv, hv20, hdown, hoff⟩ := exists_page ha
    have hpg := hsp.pgs_le_num
    unfold copyinLoop
    by_cases hlen : len > 0
    · rw [if_pos hlen, hdown, hoff]
      refine .bind (frameFor_ends hsp hg hv20 (fun s₁ hno hm => ?_) fun p s₁ hp hus hav he => ?_)
      · rw [if_pos rfl]
        refine .pure ⟨[], .stuck fun hr => hno (hv ▸ hr.first), ?_, fun i hi => absurd hi (by simp), ?_⟩
        · rw [List.append_nil, decide_eq_false (by simp only [List.length_nil]; omega)]
        · rw [List.length_nil, pagesOf_zero]
          exact copied_idle hsp hg hm
      rw [if_neg hp]
      have hvlt := hsp.usable_lt hv20 hus
      obtain ⟨n₁, hn₁, hn, hle, hin, hnext⟩ := exists_turn hv hlen
      rw [← hn₁]
      have hread := shows_read (k := n₁) sz he.page hv.symm hin
      rw [he.frame] at hread
      have hlenr : (s₁.mem.read (p + a % pgsize) n₁).length = n₁ := ByteMem.length_read n₁
      refine .bind (.of_eq rfl ?_)
      obtain ⟨l₁, hl₁⟩ : ∃ l₁, l₁ = s₁.mem.read (p + a % pgsize) n₁ := ⟨_, rfl⟩
      rw [← hl₁] at hread hlenr ⊢
      rw [nextPage_mul (by omega)]
      refine .mono (ih he.space he.good (by simp only [pgsize] at *; omega)
        (by simp only [pgsize] at *; omega)) fun r s₂ hrest => ?_
      obtain ⟨l', hext, rfl, hshow, hc⟩ := hrest
      obtain ⟨hext', hpages, hfrom⟩ := hext.from_page hnext
      have hext₂ := he.toPassed.extent hsp he.space ha hv.symm hn hin hus hav hle hnext hext'
      refine ⟨l₁ ++ l', by rw [List.length_append, hlenr]; exact hext₂, ?_, ?_, ?_⟩
      · rw [List.append_assoc, List.length_append, hlenr, Prod.mk.injEq]
        exact ⟨decide_eq_decide.2 (by omega), rfl⟩
      · -- the process sees the same in both states
        have hlooks : ∀ i < n₁ + l'.length, seen s₁.mem root sz (a + i) = seen s.mem root sz (a + i) :=
          fun i hi => he.looks _ (by
            have := hsp.reach_lt ha hext₂.reach.usable (b := a + i) (by omega) (by omega)
            simp only [pgsize] at *
            omega)
        refine Shows.append (fun i hi => ?_) fun i hi => ?_
        · rw [← hlooks i (by omega)]
          exact hread i hi
        · rw [hlenr, Nat.add_assoc, ← hlooks _ (by omega), ← Nat.add_assoc, ← hshow i hi]
          obtain h | h := hfrom
          · rw [h] at hi
            omega
          · rw [h]
      · rw [List.length_append, hlenr]
        refine ((he.copied hg).trans hc).cast ?_ fun b hb => he.looks b hb
        rw [pagesOf_succ hv.symm hn hin, Finset.insert_eq, hpages]
    · rw [if_neg hlen]
      obtain rfl : len = 0 := by omega
      refine .pure ⟨[], .nil, by rw [List.append_nil]; rfl, fun i hi => absurd hi (by simp), ?_⟩
      rw [List.length_nil, pagesOf_zero]
      exact copied_idle hsp hg .refl

/-! ## `copyinstr` -/

/-- Bytes up to the first NUL, or without one. -/
def Cut (found : Bool) (l : List UInt8) : Prop :=
  if found then ∃ l', l = l' ++ [0] ∧ 0 ∉ l' else 0 ∉ l

theorem Cut.cons {found : Bool} {b : UInt8} (h : Cut found l) (hb : b ≠ 0) : Cut found (b :: l) := by
  cases found with
  | true =>
    obtain ⟨l', rfl, hl'⟩ := h
    exact ⟨b :: l', rfl, by simp [hl', Ne.symm hb]⟩
  | false =>
    have hl : 0 ∉ l := h
    show 0 ∉ b :: l
    simp [hl, Ne.symm hb]

theorem Cut.append {found : Bool} {l' : List UInt8} (h : Cut false l) (h' : Cut found l') :
    Cut found (l ++ l') := by
  induction l with
  | nil => exact h'
  | cons b l ih =>
    have hb : 0 ∉ b :: l := h
    rw [List.mem_cons, not_or] at hb
    exact (ih hb.2).cons (Ne.symm hb.1)

/-- The inner loop of `copyinstr`. -/
theorem strLoop_ends {k q : ℕ} : Det.Ends E (strLoop k q) s fun r s' => s' = s ∧ Cut r.1 r.2 ∧
    r.2.length ≤ k ∧ (r.1 = false → r.2.length = k) ∧ r.2 = s.mem.read q r.2.length := by
  induction k generalizing q with
  | zero => exact .pure ⟨rfl, List.not_mem_nil, Nat.le_refl _, fun _ => rfl, rfl⟩
  | succ k ih =>
    unfold strLoop
    refine .bind (.of_eq rfl ?_)
    have hhead : (s.mem.read q 1).headD 0 = s.mem q := rfl
    rw [hhead]
    by_cases h0 : s.mem q = 0
    · rw [if_pos h0]
      refine .pure ⟨rfl, ⟨[], rfl, List.not_mem_nil⟩, by simp, nofun, ?_⟩
      show [0] = [s.mem q]
      rw [h0]
    · rw [if_neg h0]
      refine .bind (.mono ih fun r s' h => .pure ?_)
      obtain ⟨rfl, hcut, hle, hlen, hread⟩ := h
      refine ⟨rfl, hcut.cons h0, by simp only [List.length_cons]; omega, fun hr => ?_, ?_⟩
      · simp only [List.length_cons]
        rw [hlen hr]
      · simp only [List.length_cons]
        unfold ByteMem.read
        rw [List.range_succ_eq_map, List.map_cons, List.map_map]
        refine congrArg₂ _ rfl (hread.trans ?_)
        unfold ByteMem.read
        refine List.map_congr_left fun i _ => ?_
        simp only [Function.comp_apply]
        congr 1
        omega

/-- The loop of `copyinstr`. -/
theorem copyinstrLoop_ends {k max : ℕ} {acc : List UInt8} (hsp : Space K s.mem root sz tf)
    (hg : Good K s (tables s.mem root + (frames s.mem root sz tf + R))) (ha : a < 2 ^ 32)
    (hk : 2 ^ 20 < k + a / pgsize) :
    Det.Ends E (copyinstrLoop root k a max acc) s fun r s' => s' = s ∧ ∃ l, r.2 = acc ++ l ∧
      Cut r.1 l ∧ l.length ≤ max ∧ Shows s.mem root sz a l ∧
      (∀ i < l.length, UserPage s.mem root ((a + i) / pgsize)) ∧
      (r.1 = false → l.length < max → ¬ UserPage s.mem root ((a + l.length) / pgsize)) := by
  induction k generalizing a max acc with
  | zero =>
    simp only [pgsize] at hk
    omega
  | succ k ih =>
    obtain ⟨v, hv, hv20, hdown, hoff⟩ := exists_page ha
    have hpg := hsp.pgs_le_num
    have hdiv := mul_div_pgsize v
    unfold copyinstrLoop
    by_cases hmax : max > 0
    · rw [if_pos hmax, hdown, hoff]
      by_cases hu : UserPage s.mem root v
      · have hvlt := hsp.user_lt hv20 hu
        have hfr := hg.frame _ (.inr (Multiset.mem_add.2 (.inr (Multiset.mem_add.2 (.inl
          (Multiset.mem_add.2 (.inl (hsp.user_frame hv20 hu))))))))
        have hne : pte2pa (pte s.mem root v) ≠ 0 := by
          have h₁ := hfr.low
          have h₂ := K.kend_ge
          omega
        have hwalk : walkaddr root (pgsize * v) s = .ok (pte2pa (pte s.mem root v), s) := by
          rw [walkaddr_eq, hdiv, if_pos ⟨by simp only [pgsize, maxva]; omega, hu.valid, hu.user⟩]
        refine .bind (.of_eq hwalk ?_)
        rw [if_neg hne]
        obtain ⟨n₁, hn₁, hn, hle, hin, hnext⟩ := exists_turn hv hmax
        rw [← hn₁]
        refine .bind (.mono strLoop_ends fun r s' h => ?_)
        obtain ⟨rfl, hcut, hlen, hall, hread⟩ := h
        have hshow : Shows s'.mem root sz a r.2 := by
          rw [hread]
          exact shows_read sz hu hv.symm (by omega)
        have hpages : ∀ i < n₁, UserPage s'.mem root ((a + i) / pgsize) := fun i hi => by
          rw [show (a + i) / pgsize = v by simp only [pgsize] at *; omega]
          exact hu
        cases hr : r.1 with
        | true =>
          rw [hr] at hcut
          exact .pure ⟨rfl, r.2, rfl, hcut, hlen.trans hle, hshow, fun i hi => hpages i (by omega),
            fun h => absurd h.symm Bool.false_ne_true⟩
        | false =>
          rw [if_neg (by decide), nextPage_mul (by omega)]
          rw [hr] at hcut
          have hl₁ := hall hr
          refine .mono (ih (by simp only [pgsize] at *; omega) (by simp only [pgsize] at *; omega))
            fun r' s'' h => ?_
          obtain ⟨rfl, l', hr', hcut', hlen', hshow', hpages', hstop⟩ := h
          -- behind the last page there is nothing left to copy
          have hfrom : l' = [] ∧ max = n₁ ∨ pgsize * (v + 1) = a + n₁ := by
            obtain h | h := hnext
            · exact .inl ⟨List.eq_nil_of_length_eq_zero (by omega), h⟩
            · exact .inr h.symm
          refine ⟨rfl, r.2 ++ l', by rw [hr', List.append_assoc], hcut.append hcut', ?_, ?_, ?_, ?_⟩
          · rw [List.length_append]
            omega
          · refine hshow.append ?_
            obtain ⟨rfl, -⟩ | h := hfrom
            · exact fun i hi => absurd hi (by simp)
            · rw [hl₁, ← h]
              exact hshow'
          · intro i hi
            rw [List.length_append, hl₁] at hi
            by_cases hlt : i < n₁
            · exact hpages i hlt
            · obtain ⟨rfl, -⟩ | h := hfrom
              · simp only [List.length_nil] at hi
                omega
              · have := hpages' (i - n₁) (by omega)
                rwa [h, show a + n₁ + (i - n₁) = a + i by omega] at this
          · intro hf hlt
            rw [List.length_append, hl₁] at hlt ⊢
            obtain ⟨-, h⟩ | h := hfrom
            · omega
            · have := hstop hf (by omega)
              rwa [h, Nat.add_assoc] at this
      · have hwalk : walkaddr root (pgsize * v) s = .ok (0, s) := by
          rw [walkaddr_eq, hdiv, if_neg fun h => hu ⟨h.2.1, h.2.2⟩]
        refine .bind (.of_eq hwalk ?_)
        rw [if_pos rfl]
        refine .pure ⟨rfl, [], by rw [List.append_nil], List.not_mem_nil, Nat.zero_le _,
          fun i hi => absurd hi (by simp), fun i hi => absurd hi (by simp), fun _ _ => ?_⟩
        rw [List.length_nil, Nat.add_zero, ← hv]
        exact hu
    · rw [if_neg hmax]
      exact .pure ⟨rfl, [], by rw [List.append_nil], List.not_mem_nil, Nat.zero_le _,
        fun i hi => absurd hi (by simp), fun i hi => absurd hi (by simp), fun _ h => absurd h (by
          simp only [List.length_nil]
          omega)⟩

end Xv6.Vm
