import Xv6.Vm.Create

/-!
# A page table is a map

What `walk` finds for an address, its frame and its flags or nothing, as a function that `mappages` and
`uvmunmap` change on a range and nowhere else. This is so for every table that starts empty and is then
changed by these functions only, whatever else happens to memory outside its pages: it keeps the form of
a table with pages that are all different
(`Edited.table_apart`).

When `kalloc` hands out a page it must not be one that the table has already (`Fresh`). And `uvmunmap`
must not be told to free a page of the table: the pointer that `kfree` stores in it is a word of the
table then, and an address far from the range loses its mapping (`uvmunmap_frees_table`).
-/

namespace Xv6.Vm

variable {K : Layout} {E : Halt → Prop} {s s' s'' : Phys} {R : Multiset ℕ} {root va pa perm v m n k : ℕ}

/-! ## Looking up -/

/-- What `walk` finds for an address: the frame and the flags, or nothing when there is no word or it is
not valid. -/
def lookup (root va : ℕ) : PhysM (Option (ℕ × ℕ)) := do
  match ← walk root va false with
  | none => return none
  | some pte =>
    let w ← loadWord pte
    if w.testBit vBit then return some (pte2pa w, pteFlags w) else return none

/-- The frame and the flags of a word. -/
def decode (w : ℕ) : Option (ℕ × ℕ) :=
  if w.testBit vBit then some (pte2pa w, pteFlags w) else none

theorem lookup_eq (hva : va < maxva) :
    lookup root va s = .ok (decode (pte s.mem root (va / pgsize)), s) := by
  unfold lookup
  rw [walk_load hva fun p => rfl]
  unfold decode
  cases hd : dir s.mem root (va / pgsize / 1024) with
  | none =>
    rw [pte_of_none hd]
    rfl
  | some t =>
    simp only
    split
    · rfl
    · rfl

theorem decode_zero : decode 0 = none := rfl

theorem decode_entry (hpa : pa % pgsize = 0) (hperm : perm < pgsize) :
    decode (entry pa perm) = some (pa, perm ||| pteV) := by
  unfold decode
  rw [if_pos (entry_valid hpa hperm), pte2pa_entry hpa hperm, pteFlags_eq, entry_mod hpa hperm]

/-! ## `mappages` -/

/-- The first `m` pages from page number `v` on are mapped, to frames one after another. -/
structure Prefix (root v m pa perm : ℕ) (s s' : Phys) : Prop where
  table : Table s'.mem root
  words : ∀ u < 2 ^ 20, pte s'.mem root u =
    if v ≤ u ∧ u < v + m then entry ((pa + pgsize * (u - v)) % 2 ^ 32) perm else pte s.mem root u
  moves : s.Moves s' (tables s.mem root) (tables s'.mem root)

theorem Prefix.zero (ht : Table s.mem root) (h : Same s s') : Prefix root v 0 pa perm s s' := by
  refine ⟨by rw [h.mem]; exact ht, fun u _ => ?_, ?_⟩
  · rw [if_neg (by omega), h.mem]
  · have hm := h.moves (A := tables s.mem root)
    rwa [show tables s'.mem root = tables s.mem root by rw [h.mem]]

/-- A page more in front. -/
theorem Prefix.cons (hlt : pa < 2 ^ 32) (h : Mapped root v (entry pa perm) s s')
    (h' : Prefix root (v + 1) m (nextPage pa) perm s' s'') : Prefix root v (m + 1) pa perm s s'' := by
  refine ⟨h'.table, fun u hu => ?_, h.moves.trans h'.moves⟩
  rw [h'.words u hu, h.words u hu]
  by_cases hv : u = v
  · rw [if_neg (by omega), if_pos hv, if_pos (by omega), hv, Nat.sub_self, Nat.mul_zero, Nat.add_zero,
      Nat.mod_eq_of_lt hlt]
  · rw [if_neg hv]
    refine ite_congr (propext (by omega)) (fun hc => ?_) fun _ => rfl
    have hframe : (nextPage pa + pgsize * (u - (v + 1))) % 2 ^ 32 = (pa + pgsize * (u - v)) % 2 ^ 32 := by
      simp only [nextPage, pgsize]
      omega
    rw [hframe]

/-- A turn of the loop of `mappages`, at a page that may be mapped already. -/
theorem mapLoop_turn {Q : Bool → Phys → Prop} {last : ℕ} (hg : Good K s (tables s.mem root + R))
    (ht : Table s.mem root) (hva : va < maxva) (hpa : pa % pgsize = 0) (hlt : pa < 2 ^ 32)
    (hperm : perm < pgsize)
    (hremap : (pte s.mem root (va / pgsize)).testBit vBit = true → E (.panic "mappages: remap"))
    (hfail : ∀ s', Same s s' → Q false s')
    (hok : ∀ s', Mapped root (va / pgsize) (entry pa perm) s s' →
      Det.Ends E (if va = last then pure true
        else mapLoop root last perm k (nextPage va) (nextPage pa)) s' Q) :
    Det.Ends E (mapLoop root last perm (k + 1) va pa) s Q := by
  cases hval : (pte s.mem root (va / pgsize)).testBit vBit with
  | false =>
    exact mapLoop_step hg ht hva hval hpa hlt hperm (fun s' _ hs => hfail s' hs) fun s' _ _ hm => hok s' hm
  | true =>
    have hv : va / pgsize < 2 ^ 20 := by
      simp only [maxva, pgsize] at *
      omega
    unfold mapLoop
    refine .bind (walk_ends hg ht hva (fun s' _ hs => .pure (hfail s' hs))
      fun t s' _ _ hgr _ hd => .bind (.of_eq rfl ?_))
    rw [ld_of_dir hd, hgr.words _ hv, if_pos hval]
    exact hremap hval

/-- The loop of `mappages` over `n + 1` pages: they are all mapped, or those before the first one that has
no second level and gets none. It stops at a page that is mapped already. -/
theorem mapLoop_maps (hg : Good K s (tables s.mem root + R)) (ht : Table s.mem root)
    (hv : pgsize * (v + n) < maxva) (hk : n < k) (hpa : pa % pgsize = 0) (hlt : pa < 2 ^ 32)
    (hperm : perm < pgsize)
    (hE : (∃ u, v ≤ u ∧ u ≤ v + n ∧ (pte s.mem root u).testBit vBit = true) →
      E (.panic "mappages: remap")) :
    Det.Ends E (mapLoop root (pgsize * (v + n)) perm k (pgsize * v) pa) s
      fun r s' => ∃ m, (if r then m = n + 1 else m ≤ n) ∧ Prefix root v m pa perm s s' := by
  have hdiv := mul_div_pgsize v
  have hva : pgsize * v < maxva := by
    simp only [pgsize, maxva] at *
    omega
  induction n generalizing v k pa s with
  | zero =>
    obtain ⟨k, rfl⟩ := Nat.exists_eq_add_one_of_ne_zero (Nat.ne_zero_of_lt hk)
    refine mapLoop_turn hg ht hva hpa hlt hperm (fun hval => ?_) (fun s' hs => ?_) fun s' hm => ?_
    · rw [hdiv] at hval
      exact hE ⟨v, le_rfl, le_rfl, hval⟩
    · exact ⟨0, le_rfl, .zero ht hs⟩
    · rw [hdiv] at hm
      rw [if_pos (by rw [Nat.add_zero])]
      exact .pure ⟨1, rfl, .cons hlt hm (.zero hm.table .refl)⟩
  | succ n ih =>
    obtain ⟨k, rfl⟩ := Nat.exists_eq_add_one_of_ne_zero (Nat.ne_zero_of_lt hk)
    refine mapLoop_turn hg ht hva hpa hlt hperm (fun hval => ?_) (fun s' hs => ?_) fun s' hm => ?_
    · rw [hdiv] at hval
      exact hE ⟨v, le_rfl, by omega, hval⟩
    · exact ⟨0, Nat.zero_le _, .zero ht hs⟩
    · rw [hdiv] at hm
      rw [if_neg (by simp only [pgsize]; omega), nextPage_mul (by simp only [pgsize, maxva] at hv; omega), show v + (n + 1) = v + 1 + n by omega]
      have hv' : pgsize * (v + 1 + n) < maxva := by rwa [show v + 1 + n = v + (n + 1) by omega]
      refine .mono (ih (hg.moves hm.moves) hm.table hv' (by omega) ?_ (Nat.mod_lt _ (by decide)) ?_
        (mul_div_pgsize _) ?_) ?_
      · simp only [nextPage, pgsize] at *
        omega
      · rintro ⟨u, hu, hu', hval⟩
        have hlt : u < 2 ^ 20 := by
          simp only [pgsize, maxva] at *
          omega
        rw [hm.words u hlt, if_neg (by omega)] at hval
        exact hE ⟨u, by omega, by omega, hval⟩
      · simp only [pgsize, maxva] at *
        omega
      · rintro r s'' ⟨m, hr, hp⟩
        refine ⟨m + 1, ?_, .cons hlt hm hp⟩
        cases r with
        | false => exact Nat.succ_le_succ hr
        | true => exact congrArg Nat.succ hr

/-- `mappages` of `n` pages from page number `v` on. -/
theorem mappages_maps (hg : Good K s (tables s.mem root + R)) (ht : Table s.mem root)
    (hv : pgsize * (v + n) ≤ maxva) (hpa : pa % pgsize = 0) (hlt : pa < 2 ^ 32) (hperm : perm < pgsize)
    (hsize : n = 0 → E (.panic "mappages: size"))
    (hremap : (∃ u, v ≤ u ∧ u < v + n ∧ (pte s.mem root u).testBit vBit = true) →
      E (.panic "mappages: remap")) :
    Det.Ends E (mappages root (pgsize * v) (pgsize * n) pa perm) s
      fun r s' => ∃ m, (if r then m = n else m < n) ∧ Prefix root v m pa perm s s' := by
  unfold mappages
  rw [if_neg (by simp), if_neg (by simp)]
  cases n with
  | zero =>
    rw [if_pos (Nat.mul_zero _)]
    exact hsize rfl
  | succ n =>
    have hlast : (pgsize * v + pgsize * (n + 1) + 2 ^ 32 - pgsize) % 2 ^ 32 = pgsize * (v + n) := by
      simp only [pgsize, maxva] at *
      omega
    rw [if_neg (by simp only [pgsize]; omega), hlast]
    refine .mono (mapLoop_maps hg ht ?_ ?_ hpa hlt hperm ?_) ?_
    · simp only [pgsize, maxva] at *
      omega
    · simp only [pgsize, maxva, turns] at *
      omega
    · rintro ⟨u, h₁, h₂, hval⟩
      exact hremap ⟨u, h₁, by omega, hval⟩
    · rintro r s' ⟨m, hr, hp⟩
      refine ⟨m, ?_, hp⟩
      cases r with
      | false => exact Nat.lt_succ_of_le hr
      | true => exact hr

/-! ## `uvmunmap` -/

/-- The words of page numbers `a` to `b` are cleared. -/
structure Wiped (root a b : ℕ) (s s' : Phys) : Prop where
  table : Table s'.mem root
  words : ∀ u < 2 ^ 20, pte s'.mem root u = if a ≤ u ∧ u < b then 0 else pte s.mem root u
  dirs : ∀ i < 1024, dir s'.mem root i = dir s.mem root i

namespace Wiped

variable {a b c : ℕ}

theorem tables (h : Wiped root a b s s') : tables s'.mem root = tables s.mem root := by
  unfold Vm.tables
  rw [dirs_congr fun i _ hi => h.dirs i hi]

theorem apart (h : Wiped root a b s s') (hap : Apart s.mem root) : Apart s'.mem root :=
  ⟨by rw [h.tables]; exact hap.nodup, by rw [h.tables]; exact hap.aligned⟩

theorem refl (ht : Table s.mem root) : Wiped root a a s s :=
  ⟨ht, fun u _ => (if_neg (by omega)).symm, fun _ _ => rfl⟩

/-- A page that is not mapped. -/
theorem skip (ht : Table s.mem root) (h : pte s.mem root v = 0) : Wiped root v (v + 1) s s := by
  refine ⟨ht, fun u _ => ?_, fun _ _ => rfl⟩
  by_cases hu : v ≤ u ∧ u < v + 1
  · rw [if_pos hu, show u = v by omega, h]
  · rw [if_neg hu]

theorem trans (h : Wiped root a b s s') (h' : Wiped root b c s' s'') (hab : a ≤ b) (hbc : b ≤ c) :
    Wiped root a c s s'' := by
  refine ⟨h'.table, fun u hu => ?_, fun i hi => (h'.dirs i hi).trans (h.dirs i hi)⟩
  rw [h'.words u hu, h.words u hu]
  by_cases h₁ : b ≤ u ∧ u < c
  · rw [if_pos h₁, if_pos ⟨by omega, h₁.2⟩]
  · rw [if_neg h₁]
    exact ite_congr (propext (by omega)) (fun _ => rfl) fun _ => rfl

end Wiped

/-- The word of page number `v` is cleared. -/
theorem wiped_store {t : ℕ} (hap : Apart s.mem root) (ht : Table s.mem root) (hv : v < 2 ^ 20)
    (hd : dir s.mem root (v / 1024) = some t) :
    Wiped root v (v + 1) s { s with mem := s.mem.st (t + 4 * (v % 1024)) 0 } := by
  refine ⟨table_leaf hap hv hd ht (by decide) (.inl rfl), fun u hu => ?_, fun i hi => dir_leaf hap hv hd hi⟩
  simp only
  rw [pte_leaf hap hv hd (by decide) hu]
  exact ite_congr (propext (by omega)) (fun _ => rfl) fun _ => rfl

/-- What is outside the pages of a table does not matter to it. -/
theorem wiped_congr {a : ℕ} (hap : Apart s.mem root) (ht : Table s.mem root)
    (h : ∀ x, pgrounddown x ∈ tables s.mem root → s'.mem x = s.mem x) : Wiped root a a s s' :=
  ⟨table_congr hap.aligned h ht, fun u hu => by rw [if_neg (by omega), pte_congr hap.aligned h hu],
    fun i hi => dir_congr' hap.aligned h hi⟩

/-- A mapping is removed; a frame that is freed with it is not a page of the table. -/
theorem dropPte_wipes {t : ℕ} {doFree : Bool} (hap : Apart s.mem root) (ht : Table s.mem root)
    (hv : v < 2 ^ 20) (hd : dir s.mem root (v / 1024) = some t)
    (hnot : doFree = true → pte2pa (pte s.mem root v) ∉ tables s.mem root)
    (hkfree : doFree = true → E (.panic "kfree")) :
    Det.Ends E (dropPte K doFree (t + 4 * (v % 1024)) (pte s.mem root v)) s
      fun _ s' => Wiped root v (v + 1) s s' := by
  unfold dropPte
  cases doFree with
  | false => exact .of_eq rfl (wiped_store hap ht hv hd)
  | true =>
    rw [if_pos rfl]
    by_cases hframe : K.Frame (pte2pa (pte s.mem root v))
    · refine .bind (.of_eq (kfree_ok hframe) (.of_eq rfl ?_))
      have hfreed : Wiped root v v s { s with
          mem := s.mem.st (pte2pa (pte s.mem root v)) (s.freelist.headD 0)
          freelist := pte2pa (pte s.mem root v) :: s.freelist } := by
        refine wiped_congr hap ht fun x hx => ByteMem.st_of_not_mem ?_
        have hne : pgrounddown x ≠ pte2pa (pte s.mem root v) := fun e => hnot rfl (e ▸ hx)
        have hal := hframe.aligned
        simp only [pgrounddown, pgsize] at hne hal
        omega
      have hd' := (hfreed.dirs (v / 1024) (by omega)).trans hd
      exact hfreed.trans (wiped_store (hfreed.apart hap) hfreed.table hv hd') le_rfl (Nat.le_succ v)
    · have hbad : kfree K (pte2pa (pte s.mem root v)) s = .error (.panic "kfree") := by
        unfold kfree
        refine if_pos ?_
        by_contra hno
        exact hframe ⟨by omega, by omega, by omega⟩
      exact .bind (.of_error hbad (hkfree rfl))

/-- The frames of page numbers `a` to `b` are not pages of the table. -/
def NotOwn (s : Phys) (root a b : ℕ) : Prop :=
  ∀ u, a ≤ u → u < b → (pte s.mem root u).testBit vBit = true →
    pte2pa (pte s.mem root u) ∉ tables s.mem root

theorem unmapLoop_wipes {doFree : Bool} (hap : Apart s.mem root) (ht : Table s.mem root)
    (hv : pgsize * (v + n) ≤ maxva) (hk : n < k) (hnot : doFree = true → NotOwn s root v (v + n))
    (hkfree : doFree = true → E (.panic "kfree")) :
    Det.Ends E (unmapLoop K root (pgsize * (v + n)) doFree k (pgsize * v)) s
      fun _ s' => Wiped root v (v + n) s s' := by
  have hlt : v + n ≤ 2 ^ 20 := by
    simp only [pgsize, maxva] at hv
    omega
  refine unmapLoop_rule (I := fun u s' => Wiped root v u s s') hv hk (fun u s' hw => hw.table)
    (fun u s' h₁ h₂ hw hz => hw.trans (.skip hw.table hz) h₁ (Nat.le_succ u))
    (fun u s' t h₁ h₂ hw hd hval => ?_) (.refl ht)
  have hsame : pte s'.mem root u = pte s.mem root u := (hw.words u (by omega)).trans (if_neg (by omega))
  refine .mono (dropPte_wipes (hw.apart hap) hw.table (by omega) hd (fun hfree => ?_) hkfree)
    fun _ s'' hw' => hw.trans hw' h₁ (Nat.le_succ u)
  rw [hw.tables, hsame]
  exact hnot hfree u h₁ h₂ (hsame ▸ hval)

/-- `uvmunmap` of `n` pages from page number `v` on. -/
theorem uvmunmap_wipes {doFree : Bool} (hap : Apart s.mem root) (ht : Table s.mem root)
    (hv : pgsize * (v + n) ≤ maxva) (hnot : doFree = true → NotOwn s root v (v + n))
    (hkfree : doFree = true → E (.panic "kfree")) :
    Det.Ends E (uvmunmap K root (pgsize * v) n doFree) s fun _ s' => Wiped root v (v + n) s s' := by
  have hstop : (pgsize * v + n * pgsize) % 2 ^ 32 = pgsize * (v + n) := by
    simp only [pgsize, maxva] at *
    omega
  unfold uvmunmap
  rw [if_neg (by simp), hstop]
  refine unmapLoop_wipes hap ht hv ?_ hnot hkfree
  simp only [pgsize, maxva, turns] at *
  omega

/-! ## Tables that these functions build -/

/-- The free pages are frames that the table does not have: what `kalloc` hands out is fresh. -/
def Fresh (K : Layout) (root : ℕ) (s : Phys) : Prop := Good K s (tables s.mem root)

theorem Fresh.good (h : Fresh K root s) : Good K s (tables s.mem root + 0) := by
  rw [add_zero]
  exact h

/-- `mappages` returns only when it is given multiples of a page. -/
theorem aligned_of_mappages {size : ℕ} {r : Bool} (h : mappages root va size pa perm s = .ok (r, s')) :
    (∃ v, va = pgsize * v) ∧ ∃ n, size = pgsize * n := by
  unfold mappages at h
  by_cases hva : va % pgsize = 0
  · by_cases hsize : size % pgsize = 0
    · exact ⟨⟨_, (Nat.mul_div_cancel' (Nat.dvd_of_mod_eq_zero hva)).symm⟩,
        _, (Nat.mul_div_cancel' (Nat.dvd_of_mod_eq_zero hsize)).symm⟩
    · rw [if_neg (not_not.2 hva), if_pos hsize] at h
      cases h
  · rw [if_pos hva] at h
    cases h

theorem aligned_of_uvmunmap {npages : ℕ} {doFree : Bool}
    (h : uvmunmap K root va npages doFree s = .ok ((), s')) : ∃ v, va = pgsize * v := by
  unfold uvmunmap at h
  by_cases hva : va % pgsize = 0
  · exact ⟨_, (Nat.mul_div_cancel' (Nat.dvd_of_mod_eq_zero hva)).symm⟩
  · rw [if_pos hva] at h
    cases h

/-- No frame that the addresses from `va` to `stop` are mapped to is a page of the table. -/
def FreesNoTable (root va stop : ℕ) (s : Phys) : Prop :=
  ∀ a < maxva, va ≤ a → a < stop → ∀ f fl, lookup root a s = .ok (some (f, fl), s) → f ∉ tables s.mem root

/-- The states with a table that began empty and was changed by `walk`, `mappages` and `uvmunmap` only.
Other code may do anything to what is not a page of the table. -/
inductive Edited (K : Layout) (root : ℕ) : Phys → Prop
  | empty {s : Phys} : root % pgsize = 0 → (∀ a, pgrounddown a = root → s.mem a = 0) → Edited K root s
  | other {s s' : Phys} : Edited K root s → (∀ a, pgrounddown a ∈ tables s.mem root → s'.mem a = s.mem a) →
      Edited K root s'
  | walk {s s' : Phys} {va : ℕ} {r : Option ℕ} : Edited K root s → Fresh K root s → walk root va true s = .ok (r, s') → Edited K root s'
  | mappages {s s' : Phys} {va size pa perm : ℕ} {r : Bool} : Edited K root s → Fresh K root s → va + size ≤ maxva →
      pa % pgsize = 0 → pa < 2 ^ 32 → perm < 2 ^ 12 → mappages root va size pa perm s = .ok (r, s') →
      Edited K root s'
  | uvmunmap {s s' : Phys} {va npages : ℕ} {doFree : Bool} : Edited K root s → va + npages * pgsize ≤ maxva →
      (doFree = true → FreesNoTable root va (va + npages * pgsize) s) →
      uvmunmap K root va npages doFree s = .ok ((), s') → Edited K root s'

theorem FreesNoTable.notOwn (hv : pgsize * (v + n) ≤ maxva)
    (h : FreesNoTable root (pgsize * v) (pgsize * (v + n)) s) : NotOwn s root v (v + n) := by
  intro u h₁ h₂ hval
  have hlt : pgsize * u < maxva := by
    simp only [pgsize, maxva] at *
    omega
  refine h (pgsize * u) hlt (by simp only [pgsize]; omega) (by simp only [pgsize]; omega) _ (pteFlags (pte s.mem root u)) ?_
  rw [lookup_eq hlt, mul_div_pgsize]
  unfold decode
  rw [if_pos hval]

/-- A table stays one, with different pages. -/
theorem Edited.table_apart (h : Edited K root s) : Table s.mem root ∧ Apart s.mem root := by
  induction h with
  | empty hr hz =>
    refine ⟨table_blank hr hz, ?_, ?_⟩
    · rw [tables_blank hr hz]
      exact Multiset.nodup_singleton root
    · rw [tables_blank hr hz]
      intro p hp
      rw [Multiset.mem_singleton.1 hp]
      exact hr
  | other _ hsame ih =>
    have hw := wiped_congr (a := 0) ih.2 ih.1 hsame
    exact ⟨hw.table, hw.apart ih.2⟩
  | @walk s s' va r _ hfresh heq ih =>
    by_cases hva : va < maxva
    · refine Det.Ends.ok (Q := fun _ s' => Table s'.mem root ∧ Apart s'.mem root) (E := fun _ => False)
        (walk_ends hfresh.good ih.1 hva (fun s' _ hs => ?_) fun t s' _ _ hgr _ _ => ?_) heq
      · rw [hs.mem]
        exact ih
      · exact ⟨hgr.table, (hfresh.good.moves hgr.moves).apart⟩
    · unfold Vm.walk at heq
      rw [if_pos (by omega)] at heq
      cases heq
  | @mappages s s' va size pa perm r _ hfresh hva hpa hlt hperm heq ih =>
    obtain ⟨⟨v, rfl⟩, n, rfl⟩ := aligned_of_mappages heq
    rw [← Nat.mul_add] at hva
    obtain ⟨m, -, hp⟩ := (mappages_maps (E := fun _ => True) hfresh.good ih.1 hva hpa hlt hperm
      (fun _ => trivial) fun _ => trivial).ok heq
    exact ⟨hp.table, (hfresh.good.moves hp.moves).apart⟩
  | @uvmunmap s s' va n doFree _ hva hfree heq ih =>
    obtain ⟨v, rfl⟩ := aligned_of_uvmunmap heq
    rw [show pgsize * v + n * pgsize = pgsize * (v + n) by rw [Nat.mul_add, Nat.mul_comm n]] at hva hfree
    have hw := (uvmunmap_wipes (E := fun _ => True) ih.2 ih.1 hva (fun hf => (hfree hf).notOwn hva)
      fun _ => trivial).ok heq
    exact ⟨hw.table, hw.apart ih.2⟩

/-- A page table is a map. For every table that was edited by these functions only: `mappages` changes the
translation of the addresses of its range, all of them when it succeeds and those of a first part when it
returns -1, and of no other; it stops only if the range is empty or has an address that is mapped.
`uvmunmap` leaves exactly the addresses of its range unmapped, or stops in `kfree`. -/
theorem pagetable_is_map (h : Edited K root s) :
    (∀ va size pa perm, va % pgsize = 0 → size % pgsize = 0 → va + size ≤ maxva → pa % pgsize = 0 →
      pa < 2 ^ 32 → perm < 2 ^ 12 → Fresh K root s →
      Det.Ends
        (fun e => (size = 0 ∧ e = .panic "mappages: size") ∨
          (e = .panic "mappages: remap" ∧ ∃ a, va ≤ a ∧ a < va + size ∧ lookup root a s ≠ .ok (none, s)))
        (mappages root va size pa perm) s
        fun r s' => ∃ done, done % pgsize = 0 ∧ (if r then done = size else done < size) ∧
          ∀ a < maxva, ∃ old, lookup root a s = .ok (old, s) ∧
            lookup root a s' = .ok
              (if va ≤ a ∧ a < va + done then some ((pa + (pgrounddown a - va)) % 2 ^ 32, perm ||| pteV)
              else old, s')) ∧
    ∀ va npages doFree, va % pgsize = 0 → va + npages * pgsize ≤ maxva →
      (doFree = true → FreesNoTable root va (va + npages * pgsize) s) →
      Det.Ends (fun e => doFree = true ∧ e = .panic "kfree") (uvmunmap K root va npages doFree) s
        fun _ s' => ∀ a < maxva, ∃ old, lookup root a s = .ok (old, s) ∧
          lookup root a s' = .ok (if va ≤ a ∧ a < va + npages * pgsize then none else old, s') := by
  obtain ⟨ht, hap⟩ := h.table_apart
  refine ⟨fun va size pa perm hva hsize hle hpa hlt hperm hfresh => ?_,
    fun va n doFree hva hle hfree => ?_⟩
  · obtain ⟨v, rfl⟩ := Nat.dvd_of_mod_eq_zero hva
    obtain ⟨n, rfl⟩ := Nat.dvd_of_mod_eq_zero hsize
    have hle' : pgsize * (v + n) ≤ maxva := by rwa [Nat.mul_add]
    refine .mono (mappages_maps hfresh.good ht hle' hpa hlt hperm (fun hn => ?_) ?_) ?_
    · exact .inl ⟨by rw [hn, Nat.mul_zero], rfl⟩
    · rintro ⟨u, h₁, h₂, hval⟩
      refine .inr ⟨rfl, pgsize * u, ?_, ?_, ?_⟩
      · simp only [pgsize]
        omega
      · simp only [pgsize]
        omega
      · rw [lookup_eq (by simp only [pgsize, maxva] at *; omega), mul_div_pgsize]
        unfold decode
        rw [if_pos hval]
        simp
    · rintro r s' ⟨m, hm, hp⟩
      refine ⟨pgsize * m, Nat.mul_mod_right .., ?_, fun a ha => ⟨_, lookup_eq ha, ?_⟩⟩
      · cases r with
        | false => exact Nat.mul_lt_mul_of_pos_left hm (by decide)
        | true => exact congrArg (pgsize * ·) hm
      · rw [lookup_eq ha, hp.words _ (by simp only [pgsize, maxva] at *; omega)]
        by_cases hin : v ≤ a / pgsize ∧ a / pgsize < v + m
        · have hframe : pa + pgsize * (a / pgsize - v) = pa + (pgrounddown a - pgsize * v) := by
            simp only [pgrounddown, pgsize]
            omega
          rw [if_pos hin, if_pos (by simp only [pgsize] at *; omega), hframe, decode_entry ?_ hperm]
          simp only [pgrounddown, pgsize] at *
          omega
        · rw [if_neg hin, if_neg (by simp only [pgsize] at *; omega)]
  · obtain ⟨v, rfl⟩ := Nat.dvd_of_mod_eq_zero hva
    rw [show pgsize * v + n * pgsize = pgsize * (v + n) by rw [Nat.mul_add, Nat.mul_comm n]] at hle hfree ⊢
    refine .mono (uvmunmap_wipes hap ht hle (fun hf => (hfree hf).notOwn hle) fun hf => ⟨hf, rfl⟩) ?_
    intro _ s' hw a ha
    refine ⟨_, lookup_eq ha, ?_⟩
    rw [lookup_eq ha, hw.words _ (by simp only [pgsize, maxva] at *; omega)]
    by_cases hin : v ≤ a / pgsize ∧ a / pgsize < v + n
    · rw [if_pos hin, if_pos (by simp only [pgsize] at *; omega), decode_zero]
    · rw [if_neg hin, if_neg (by simp only [pgsize] at *; omega)]

/-- What `mappages` takes for the table is not free any more. -/
theorem Fresh.mappages {size : ℕ} {r : Bool} (hf : Fresh K root s) (h : Edited K root s)
    (hle : va + size ≤ maxva) (hpa : pa % pgsize = 0) (hlt : pa < 2 ^ 32) (hperm : perm < 2 ^ 12)
    (heq : mappages root va size pa perm s = .ok (r, s')) : Fresh K root s' := by
  obtain ⟨⟨v, rfl⟩, n, rfl⟩ := aligned_of_mappages heq
  rw [← Nat.mul_add] at hle
  obtain ⟨m, -, hp⟩ := (mappages_maps (E := fun _ => True) hf.good h.table_apart.1 hle hpa hlt hperm
    (fun _ => trivial) fun _ => trivial).ok heq
  exact (hf.good.moves hp.moves).cast (add_zero _)

/-! ## Small tables -/

theorem edited_smallPhys : Edited smallLayout 0x2000 smallPhys := .empty (by decide) fun _ _ => rfl

theorem fresh_smallPhys : Fresh smallLayout 0x2000 smallPhys := by
  have htables : tables smallPhys.mem 0x2000 = {0x2000} := tables_blank (by decide) fun _ _ => rfl
  unfold Fresh
  rw [htables]
  exact good_smallPhys

/-- Two pages in an empty table, the second of them looked up. -/
theorem pagetable_is_map_small : ∃ s', mappages 0x2000 0x1000 0x2000 0x5000 pteR smallPhys = .ok (true, s') ∧
    lookup 0x2000 0x2abc s' = .ok (some (0x6000, pteR ||| pteV), s') := by
  refine ⟨_, rfl, ?_⟩
  obtain ⟨done, -, rfl, hlook⟩ := Det.Ends.ok ((pagetable_is_map edited_smallPhys).1 0x1000 0x2000 0x5000 pteR
    (by decide) (by decide) (by decide) (by decide) (by decide) (by decide) fresh_smallPhys) rfl
  obtain ⟨_, -, hnew⟩ := hlook 0x2abc (by decide)
  exact hnew

/-- The root of a table, mapped at 4 MiB and freed with its mapping: the page at 0 loses its own. -/
theorem uvmunmap_frees_table : ∃ s s', Edited smallLayout 0x2000 s ∧
    uvmunmap smallLayout 0x2000 0x400000 1 true s = .ok ((), s') ∧
    lookup 0x2000 0 s = .ok (some (0x5000, pteR ||| pteV), s) ∧ lookup 0x2000 0 s' = .ok (none, s') := by
  have h₁ := edited_smallPhys.mappages (r := true) fresh_smallPhys (show 0 + 0x1000 ≤ maxva by decide)
    (show 0x5000 % pgsize = 0 from rfl) (by decide) (show pteR < 2 ^ 12 by decide) rfl
  have hf₁ := fresh_smallPhys.mappages (r := true) edited_smallPhys (show 0 + 0x1000 ≤ maxva by decide)
    (show 0x5000 % pgsize = 0 from rfl) (by decide) (show pteR < 2 ^ 12 by decide) rfl
  have h₂ := h₁.mappages (r := true) hf₁ (show 0x400000 + 0x1000 ≤ maxva by decide)
    (show 0x2000 % pgsize = 0 from rfl) (by decide) (show pteR < 2 ^ 12 by decide) rfl
  exact ⟨_, _, h₂, rfl, rfl, rfl⟩

end Xv6.Vm
