import Xv6.Vm.Table

/-!
# Mapping and unmapping

What the functions on one page table do to what it says. `walk` and `mappages` may add pages of the
second level, `mappages` also sets one word; `uvmunmap` clears the words of a range and gives their
frames back, `freewalk` gives back the pages of a table that maps nothing. None of them stops in a
`panic`, as long as `mappages` is given a page that is not mapped.
-/

namespace Xv6.Vm

open Transfer

variable {K : Layout} {E : Halt → Prop} {s s' s'' : Phys} {R : Multiset ℕ} {root va pa perm : ℕ}

/-! ## `walk` -/

/-- `walk` without `alloc` only reads. -/
theorem walk_read (hva : va < maxva) : walk root va false s =
    .ok ((dir s.mem root (va / pgsize / 1024)).map (· + 4 * (va / pgsize % 1024)), s) := by
  unfold walk dir
  rw [if_neg (by omega), loadWord_bind, px1_eq (by simp only [maxva] at hva; omega), px0_eq]
  by_cases h : (s.mem.ld (root + 4 * (va / pgsize / 1024))).testBit vBit
  · rw [if_pos h, if_pos h]
    rfl
  · rw [if_neg h, if_neg h]
    rfl

/-- The word of a page as the code gets it: `walk`, then a load. -/
theorem walk_load {α : Type} {f : Option ℕ → PhysM α} (hva : va < maxva) {g : ℕ → ℕ → PhysM α}
    (hf : ∀ p, f (some p) = loadWord p >>= g p) :
    (walk root va false >>= f) s = match dir s.mem root (va / pgsize / 1024) with
      | none => f none s
      | some t => g (t + 4 * (va / pgsize % 1024)) (pte s.mem root (va / pgsize)) s := by
  rw [Det.bind_ok (walk_read hva)]
  unfold pte
  cases dir s.mem root (va / pgsize / 1024) with
  | none => rfl
  | some t =>
    simp only [Option.map_some, Option.elim_some]
    rw [hf, loadWord_bind]

/-- The pages that `walk` needs for page number `v`. -/
def need (m : ByteMem) (root v : ℕ) : ℕ := if dir m root (v / 1024) = none then 1 else 0

theorem need_le (m : ByteMem) (root v : ℕ) : need m root v ≤ 1 := by
  unfold need
  split <;> omega

/-- The table has pages added, and says the same. -/
structure Grown (root : ℕ) (s s' : Phys) : Prop where
  table : Table s'.mem root
  words : ∀ v < 2 ^ 20, pte s'.mem root v = pte s.mem root v
  moves : s.Moves s' (tables s.mem root) (tables s'.mem root)
  kept : ∀ i < 1024, ∀ t, dir s.mem root i = some t → dir s'.mem root i = some t

theorem Grown.refl (ht : Table s.mem root) : Grown root s s := ⟨ht, fun _ _ => rfl, .refl, fun _ _ _ h => h⟩

/-- `walk` with `alloc`. -/
theorem walk_ends {Q : Option ℕ → Phys → Prop} (hg : Good K s (tables s.mem root + R))
    (ht : Table s.mem root) (hva : va < maxva)
    (hnone : ∀ s', ¬ Avail s (need s.mem root (va / pgsize)) → Same s s' → Q none s')
    (hsome : ∀ t s', Avail s (need s.mem root (va / pgsize)) →
      Took s s' (need s.mem root (va / pgsize)) → Grown root s s' →
      (∀ i < 1024, i ≠ va / pgsize / 1024 → dir s'.mem root i = dir s.mem root i) →
      dir s'.mem root (va / pgsize / 1024) = some t →
      Q (some (t + 4 * (va / pgsize % 1024))) s') : Det.Ends E (walk root va true) s Q := by
  have hi : va / pgsize / 1024 < 1024 := by
    simp only [maxva, pgsize] at *
    omega
  unfold walk
  rw [if_neg (by omega), px1_eq (by simp only [maxva] at hva; omega), px0_eq]
  refine .bind (.of_eq rfl ?_)
  by_cases h : (s.mem.ld (root + 4 * (va / pgsize / 1024))).testBit vBit
  · have hd : dir s.mem root (va / pgsize / 1024) =
        some (pte2pa (s.mem.ld (root + 4 * (va / pgsize / 1024)))) := if_pos h
    have hn : need s.mem root (va / pgsize) = 0 := if_neg (by rw [hd]; simp)
    rw [if_pos h]
    exact .pure (hsome _ s (hn ▸ ⟨Nat.zero_le _, fun i hi => absurd hi (by omega)⟩) (hn ▸ .refl)
      (.refl ht) (fun _ _ _ => rfl) hd)
  · have hd : dir s.mem root (va / pgsize / 1024) = none := if_neg h
    have hn : need s.mem root (va / pgsize) = 1 := if_pos hd
    rw [hn] at hnone hsome
    rw [if_neg h]
    refine .bind (kalloc_ends (fun s' ha hs => .pure (hnone s' ha hs)) fun t s' ha htook hm hf => ?_)
    have hfree : t ∈ s.freelist := by
      rw [hf]
      exact List.mem_cons_self
    have hframe := hg.frame t (.inl hfree)
    have hlt : t < 2 ^ 32 := by
      have := hframe.high
      simp only [phystop] at this
      omega
    have hne : t ∉ tables s.mem root := fun hx =>
      hg.not_free (Multiset.mem_add.2 (.inl hx)) hfree
    have hap := hg.apart
    have hmem : (s'.mem.fill t pgsize 0).st (root + 4 * (va / pgsize / 1024)) (pa2pte t ||| pteV) =
        addDir s.mem root (va / pgsize / 1024) t := by rw [hm]; rfl
    refine .bind (.of_eq rfl (.bind (.of_eq rfl (.pure
      (hsome t _ ha ⟨htook.freelist, htook.deny⟩ ?_ ?_ ?_)))))
    · simp only [hmem]
      refine ⟨table_addDir hap hi hframe.aligned hlt hne hd ht,
        fun v hv => pte_addDir hap hi hframe.aligned hlt hne hd hv, ⟨?_, fun a hF hA => ?_⟩, ?_⟩
      · simp only
        rw [tables_addDir hap hi hframe.aligned hlt hne hd, hf, ← Multiset.cons_coe,
          ← Multiset.singleton_add]
        abel
      · refine addDir_of_ne hap.root_aligned hi hframe.aligned (fun e => hA ?_) fun e => hF ?_
        · rw [e]
          exact root_mem
        · rw [e]
          exact hfree
      · intro j hj t' hdj
        rw [dir_addDir hap hi hframe.aligned hlt hne hj, if_neg, hdj]
        rintro rfl
        rw [hd] at hdj
        cases hdj
    · intro j hj hji
      simp only [hmem]
      rw [dir_addDir hap hi hframe.aligned hlt hne hj, if_neg hji]
    · simp only [hmem]
      rw [dir_addDir hap hi hframe.aligned hlt hne hi, if_pos rfl]

/-! ## `mappages` -/

/-- One word of the table is set. -/
structure Mapped (root v w : ℕ) (s s' : Phys) : Prop where
  table : Table s'.mem root
  words : ∀ u < 2 ^ 20, pte s'.mem root u = if u = v then w else pte s.mem root u
  moves : s.Moves s' (tables s.mem root) (tables s'.mem root)
  kept : ∀ i < 1024, ∀ t, dir s.mem root i = some t → dir s'.mem root i = some t
  has : dir s'.mem root (v / 1024) ≠ none
  others : ∀ i < 1024, i ≠ v / 1024 → dir s'.mem root i = dir s.mem root i

/-- A store to the word of page number `v`. -/
theorem Grown.set {v t w : ℕ} (h : Grown root s s') (hap : Apart s'.mem root) (hv : v < 2 ^ 20)
    (ho : ∀ i < 1024, i ≠ v / 1024 → dir s'.mem root i = dir s.mem root i)
    (hd : dir s'.mem root (v / 1024) = some t) (hw : w < 2 ^ 32)
    (hz : w = 0 ∨ w.testBit vBit = true) :
    Mapped root v w s { s' with mem := s'.mem.st (t + 4 * (v % 1024)) w } := by
  have hi : v / 1024 < 1024 := by omega
  refine ⟨table_leaf hap hv hd h.table hw hz, fun u hu => ?_, h.moves.trans ?_, fun i hi t' hdi => ?_, ?_,
    fun i hi' hne => ?_⟩
  · simp only
    rw [pte_leaf hap hv hd hw hu, h.words u hu]
  · have hta := tables_leaf hap hv hd (w := w)
    refine ⟨by simp only; rw [hta], fun a _ ha => ByteMem.st_of_not_mem ?_⟩
    have hal := hap.dir_aligned hi hd
    have hne : pgrounddown a ≠ t := fun e => ha (e ▸ dir_mem hi hd)
    simp only [pgrounddown, pgsize] at *
    omega
  · simp only
    rw [dir_leaf hap hv hd hi]
    exact h.kept i hi t' hdi
  · simp only
    rw [dir_leaf hap hv hd hi, hd]
    simp
  · simp only
    rw [dir_leaf hap hv hd hi']
    exact ho i hi' hne

/-- A turn of the loop of `mappages`. -/
theorem mapLoop_step {Q : Bool → Phys → Prop} {last k : ℕ} (hg : Good K s (tables s.mem root + R))
    (ht : Table s.mem root) (hva : va < maxva)
    (hfree : (pte s.mem root (va / pgsize)).testBit vBit = false) (hpa : pa % pgsize = 0)
    (hlt : pa < 2 ^ 32) (hperm : perm < pgsize)
    (hfail : ∀ s', ¬ Avail s (need s.mem root (va / pgsize)) → Same s s' → Q false s')
    (hok : ∀ s', Avail s (need s.mem root (va / pgsize)) →
      Took s s' (need s.mem root (va / pgsize)) →
      Mapped root (va / pgsize) (entry pa perm) s s' →
      Det.Ends E (if va = last then pure true
        else mapLoop root last perm k (nextPage va) (nextPage pa)) s' Q) :
    Det.Ends E (mapLoop root last perm (k + 1) va pa) s Q := by
  have hv : va / pgsize < 2 ^ 20 := by
    simp only [maxva, pgsize] at *
    omega
  unfold mapLoop
  refine .bind (walk_ends hg ht hva (fun s' ha hs => .pure (hfail s' ha hs))
    fun t s' ha htook hgr ho hd => .bind (.of_eq rfl ?_))
  rw [ld_of_dir hd, hgr.words _ hv, hfree]
  exact .bind (.of_eq rfl (hok _ ha ⟨htook.freelist, htook.deny⟩
    (hgr.set (hg.moves hgr.moves).apart hv ho hd (entry_lt hpa hperm hlt)
      (.inr (entry_valid hpa hperm)))))

/-- `mappages` of one page. -/
theorem mappages_ends {Q : Bool → Phys → Prop} (hg : Good K s (tables s.mem root + R))
    (ht : Table s.mem root) (hva : va < maxva) (hal : va % pgsize = 0)
    (hfree : (pte s.mem root (va / pgsize)).testBit vBit = false) (hpa : pa % pgsize = 0)
    (hlt : pa < 2 ^ 32) (hperm : perm < pgsize)
    (hfail : ∀ s', ¬ Avail s (need s.mem root (va / pgsize)) → Same s s' → Q false s')
    (hok : ∀ s', Avail s (need s.mem root (va / pgsize)) →
      Took s s' (need s.mem root (va / pgsize)) →
      Mapped root (va / pgsize) (entry pa perm) s s' → Q true s') :
    Det.Ends E (mappages root va pgsize pa perm) s Q := by
  have hlast : (va + pgsize + 2 ^ 32 - pgsize) % 2 ^ 32 = va := by
    simp only [maxva, pgsize] at *
    omega
  unfold mappages
  rw [if_neg (by omega), if_neg (by decide), if_neg (by decide), hlast]
  refine mapLoop_step hg ht hva hfree hpa hlt hperm hfail fun s' ha htook hmap => ?_
  rw [if_pos rfl]
  exact .pure (hok s' ha htook hmap)

/-! ## `uvmunmap` -/

/-- The frame of a word. -/
def frameOf (w : ℕ) : Multiset ℕ := if w.testBit vBit then {pte2pa w} else 0

/-- The frames that page numbers `a` to `b` are mapped to. -/
@[irreducible] def users (m : ByteMem) (root a b : ℕ) : Multiset ℕ :=
  ∑ v ∈ Finset.Ico a b, frameOf (pte m root v)

section Users

variable {m m' : ByteMem} {a b c p v w : ℕ}

theorem frameOf_valid (h : w.testBit vBit = true) : frameOf w = {pte2pa w} := if_pos h

theorem frameOf_invalid (h : w.testBit vBit = false) : frameOf w = 0 := if_neg (by rw [h]; simp)

theorem mem_users : p ∈ users m root a b ↔ ∃ v, a ≤ v ∧ v < b ∧ p ∈ frameOf (pte m root v) := by
  rw [users, Multiset.mem_sum]
  constructor
  · rintro ⟨v, hv, hp⟩
    exact ⟨v, (Finset.mem_Ico.1 hv).1, (Finset.mem_Ico.1 hv).2, hp⟩
  · rintro ⟨v, ha, hb, hp⟩
    exact ⟨v, Finset.mem_Ico.2 ⟨ha, hb⟩, hp⟩

/-- The flags of the words do not matter. -/
theorem users_congr_frame
    (h : ∀ v, a ≤ v → v < b → frameOf (pte m' root v) = frameOf (pte m root v)) :
    users m' root a b = users m root a b := by
  rw [users, users]
  exact Finset.sum_congr rfl fun v hv => h v (Finset.mem_Ico.1 hv).1 (Finset.mem_Ico.1 hv).2

theorem users_congr (h : ∀ v, a ≤ v → v < b → pte m' root v = pte m root v) :
    users m' root a b = users m root a b :=
  users_congr_frame fun v h₁ h₂ => by rw [h v h₁ h₂]

theorem users_self : users m root a a = 0 := by
  rw [users, Finset.Ico_self, Finset.sum_empty]

theorem users_succ (h : a ≤ b) :
    users m root a (b + 1) = users m root a b + frameOf (pte m root b) := by
  rw [users, users]
  exact Finset.sum_Ico_succ_top h _

theorem users_split (h : a ≤ b) (h' : b ≤ c) :
    users m root a c = users m root a b + users m root b c := by
  rw [users, users, users]
  exact (Finset.sum_Ico_consecutive _ h h').symm

theorem users_one : users m root a (a + 1) = frameOf (pte m root a) := by
  rw [users_succ (le_refl a), users_self, zero_add]

theorem users_zero (h : ∀ v, a ≤ v → v < b → pte m root v = 0) : users m root a b = 0 := by
  rw [users]
  refine Finset.sum_eq_zero fun v hv => ?_
  rw [h v (Finset.mem_Ico.1 hv).1 (Finset.mem_Ico.1 hv).2]
  rfl

/-- A frame is mapped once. -/
theorem users_inj (hn : (users m root a b).Nodup) {u : ℕ} (hu : a ≤ u ∧ u < b) (hv : a ≤ v ∧ v < b)
    (hp : p ∈ frameOf (pte m root u)) (hp' : p ∈ frameOf (pte m root v)) : u = v := by
  by_contra hne
  rw [users] at hn
  have hdis := disjoint_of_nodup_sum hn (Finset.mem_Ico.2 hu) (Finset.mem_Ico.2 hv) hne
  exact Multiset.disjoint_left.1 hdis hp hp'

end Users

/-- The words of page numbers `a` to `b` are cleared, and the frames of `D` given back. -/
structure Cleared (root a b : ℕ) (D : Multiset ℕ) (s s' : Phys) : Prop where
  table : Table s'.mem root
  words : ∀ u < 2 ^ 20, pte s'.mem root u = if a ≤ u ∧ u < b then 0 else pte s.mem root u
  dirs : ∀ i < 1024, dir s'.mem root i = dir s.mem root i
  moves : s.Moves s' (tables s.mem root + D) (tables s'.mem root)

namespace Cleared

variable {a b c v : ℕ} {D D' : Multiset ℕ}

theorem refl (ht : Table s.mem root) : Cleared root a a 0 s s :=
  ⟨ht, fun u _ => (if_neg (by omega)).symm, fun _ _ => rfl, by rw [add_zero]; exact .refl⟩

theorem skip (ht : Table s.mem root) (h : pte s.mem root v = 0) : Cleared root v (v + 1) 0 s s := by
  refine ⟨ht, fun u _ => ?_, fun _ _ => rfl, by rw [add_zero]; exact .refl⟩
  split
  · rw [show u = v by omega, h]
  · rfl

theorem trans (h : Cleared root a b D s s') (h' : Cleared root b c D' s' s'') (hab : a ≤ b)
    (hbc : b ≤ c) : Cleared root a c (D + D') s s'' := by
  refine ⟨h'.table, fun u hu => ?_, fun i hi => (h'.dirs i hi).trans (h.dirs i hi), ?_⟩
  · rw [h'.words u hu, h.words u hu]
    by_cases h₁ : b ≤ u ∧ u < c
    · rw [if_pos h₁, if_pos ⟨by omega, h₁.2⟩]
    · rw [if_neg h₁]
      by_cases h₂ : a ≤ u ∧ u < b
      · rw [if_pos h₂, if_pos ⟨h₂.1, by omega⟩]
      · rw [if_neg h₂, if_neg (by omega)]
  · exact ((h.moves.frame D').cast (add_assoc _ _ _) rfl).trans h'.moves

end Cleared

/-- A mapping is removed. -/
theorem dropPte_ends {v t : ℕ} {doFree : Bool} {D : Multiset ℕ}
    (hD : D = if doFree then frameOf (pte s.mem root v) else 0)
    (hg : Good K s (tables s.mem root + (D + R))) (ht : Table s.mem root) (hv : v < 2 ^ 20)
    (hd : dir s.mem root (v / 1024) = some t) (hval : (pte s.mem root v).testBit vBit = true) :
    Det.Ends E (dropPte K doFree (t + 4 * (v % 1024)) (pte s.mem root v)) s
      fun _ s' => Cleared root v (v + 1) D s s' := by
  have clear : ∀ {s : Phys} {R : Multiset ℕ}, Good K s (tables s.mem root + R) → Table s.mem root →
      dir s.mem root (v / 1024) = some t →
      Cleared root v (v + 1) 0 s { s with mem := s.mem.st (t + 4 * (v % 1024)) 0 } := by
    intro s R hg ht hd
    have hm := (Grown.refl ht).set hg.apart hv (fun _ _ _ => rfl) hd (by decide) (.inl rfl)
    refine ⟨hm.table, fun u hu => ?_, fun i hi => dir_leaf hg.apart hv hd hi, ?_⟩
    · rw [hm.words u hu]
      exact ite_congr (propext (by omega)) (fun _ => rfl) fun _ => rfl
    · rw [add_zero]
      exact hm.moves
  unfold dropPte
  cases doFree with
  | false =>
    subst hD
    exact .of_eq rfl (clear hg ht hd)
  | true =>
    rw [if_pos rfl] at hD ⊢
    rw [frameOf_valid hval] at hD
    subst hD
    have hframe : K.Frame (pte2pa (pte s.mem root v)) := hg.frame _ (.inr (by simp))
    have hmv := moves_of_kfree (s := s) hframe
    have hnot : pte2pa (pte s.mem root v) ∉ tables s.mem root := fun hx => by
      refine Multiset.disjoint_left.1 (Multiset.nodup_add.1 hg.held_nodup).2.2 hx ?_
      simp
    have hsame : ∀ a, pgrounddown a ∈ tables s.mem root →
        s.mem.st (pte2pa (pte s.mem root v)) (s.freelist.headD 0) a = s.mem a := fun a ha =>
      ByteMem.st_of_not_mem (by
        have hne : pgrounddown a ≠ pte2pa (pte s.mem root v) := fun e => hnot (e ▸ ha)
        have := hframe.aligned
        simp only [pgrounddown, pgsize] at hne this
        omega)
    have hal := hg.apart.aligned
    refine .bind (.of_eq (kfree_ok hframe) (.of_eq rfl ?_))
    have htab := tables_congr hal hsame
    have hg' := (hg.cast (by rw [add_left_comm])).moves hmv
    rw [zero_add] at hg'
    have hc := clear (s := { s with
        mem := s.mem.st (pte2pa (pte s.mem root v)) (s.freelist.headD 0)
        freelist := pte2pa (pte s.mem root v) :: s.freelist })
      (by simp only; rw [htab]; exact hg') (table_congr hal hsame ht)
      (by simp only; rw [dir_congr' hal hsame (by omega)]; exact hd)
    refine ⟨hc.table, fun u hu => ?_, fun i hi => ?_, ?_⟩
    · rw [hc.words u hu]
      simp only
      rw [pte_congr hal hsame hu]
    · rw [hc.dirs i hi]
      exact dir_congr' hal hsame hi
    · have h₁ := (hmv.frame (tables s.mem root)).cast (add_comm _ _) (zero_add _)
      have h₂ := hc.moves
      simp only [add_zero] at h₂
      rw [htab] at h₂
      exact h₁.trans h₂

/-- The loop of `uvmunmap` over `n` pages, by an invariant of the page number it has come to. -/
theorem unmapLoop_rule {doFree : Bool} {v n k : ℕ} {I : ℕ → Phys → Prop}
    (hv : pgsize * (v + n) ≤ maxva) (hk : n < k) (ht : ∀ u s', I u s' → Table s'.mem root)
    (hskip : ∀ u s', v ≤ u → u < v + n → I u s' → pte s'.mem root u = 0 → I (u + 1) s')
    (hdrop : ∀ u s' t, v ≤ u → u < v + n → I u s' → dir s'.mem root (u / 1024) = some t →
      (pte s'.mem root u).testBit vBit = true →
      Det.Ends E (dropPte K doFree (t + 4 * (u % 1024)) (pte s'.mem root u)) s' fun _ s'' => I (u + 1) s'')
    (h : I v s) :
    Det.Ends E (unmapLoop K root (pgsize * (v + n)) doFree k (pgsize * v)) s fun _ s' => I (v + n) s' := by
  induction n generalizing v k s with
  | zero =>
    obtain ⟨k, rfl⟩ := Nat.exists_eq_add_one_of_ne_zero (Nat.ne_zero_of_lt hk)
    unfold unmapLoop
    rw [Nat.add_zero, if_neg (Nat.lt_irrefl _)]
    exact .pure h
  | succ n ih =>
    obtain ⟨k, rfl⟩ := Nat.exists_eq_add_one_of_ne_zero (Nat.ne_zero_of_lt hk)
    simp only [pgsize, maxva] at hv
    -- the rest of the loop, from a state in which page `v` is done
    have rest : ∀ s', I (v + 1) s' →
        Det.Ends E (unmapLoop K root (pgsize * (v + (n + 1))) doFree k (nextPage (pgsize * v))) s'
          fun _ s'' => I (v + (n + 1)) s'' := by
      intro s' h'
      rw [nextPage_mul (by omega), show v + (n + 1) = v + 1 + n by omega]
      exact ih (by simp only [pgsize, maxva]; omega) (by omega)
        (fun u s' h₁ h₂ => hskip u s' (by omega) (by omega))
        (fun u s' t h₁ h₂ => hdrop u s' t (by omega) (by omega)) h'
    unfold unmapLoop
    rw [if_pos (by simp only [pgsize]; omega)]
    refine .bind (.of_eq (walk_read (by simp only [pgsize, maxva]; omega)) ?_)
    rw [mul_div_pgsize]
    have hleaf := (ht v s h).leaf v (by omega)
    cases hd : dir s.mem root (v / 1024) with
    | none => exact rest s (hskip v s le_rfl (by omega) h (pte_of_none hd))
    | some t =>
      refine .bind (.of_eq rfl ?_)
      rw [ld_of_dir hd]
      cases hval : (pte s.mem root v).testBit vBit with
      | false =>
        exact rest s (hskip v s le_rfl (by omega) h (hleaf.resolve_right (by rw [hval]; simp)))
      | true => exact .bind (.mono (hdrop v s t le_rfl (by omega) h hd hval) fun _ => rest)

/-- The frames that are freed with the mappings of page numbers `a` to `b`. -/
theorem freed_succ {doFree : Bool} {m : ByteMem} {a b : ℕ} (h : a ≤ b) :
    (if doFree then users m root a (b + 1) else 0) =
      (if doFree then users m root a b else 0) + if doFree then frameOf (pte m root b) else 0 := by
  cases doFree with
  | false => rfl
  | true => exact users_succ h

theorem unmapLoop_ends {doFree : Bool} {v n k : ℕ}
    (hg : Good K s (tables s.mem root + ((if doFree then users s.mem root v (v + n) else 0) + R)))
    (ht : Table s.mem root) (hv : pgsize * (v + n) ≤ maxva) (hk : n < k) :
    Det.Ends E (unmapLoop K root (pgsize * (v + n)) doFree k (pgsize * v)) s
      fun _ s' => Cleared root v (v + n) (if doFree then users s.mem root v (v + n) else 0) s s' := by
  have hlt : v + n ≤ 2 ^ 20 := by
    simp only [pgsize, maxva] at hv
    omega
  -- the words from `u` on are as they were
  have hsame : ∀ u s', v ≤ u → u < v + n →
      Cleared root v u (if doFree then users s.mem root v u else 0) s s' →
      pte s'.mem root u = pte s.mem root u := fun u s' h₁ h₂ hc =>
    (hc.words u (by omega)).trans (if_neg (by omega))
  refine unmapLoop_rule (I := fun u s' =>
    Cleared root v u (if doFree then users s.mem root v u else 0) s s') hv hk (fun u s' hc => hc.table)
    (fun u s' h₁ h₂ hc hz => ?_) (fun u s' t h₁ h₂ hc hd hval => ?_) ?_
  · have hfreed : (if doFree then frameOf (pte s.mem root u) else 0) = 0 := by
      rw [← hsame u s' h₁ h₂ hc, hz]
      exact ite_self 0
    rw [freed_succ h₁, hfreed]
    exact hc.trans (.skip hc.table hz) h₁ (Nat.le_succ u)
  · have hsplit : (if doFree then users s.mem root v (v + n) else 0) =
        (if doFree then users s.mem root v u else 0) +
          ((if doFree then frameOf (pte s.mem root u) else 0) +
            if doFree then users s.mem root (u + 1) (v + n) else 0) := by
      cases doFree with
      | false => rfl
      | true =>
        simp only [if_true]
        rw [users_split h₁ h₂.le, users_split (Nat.le_succ u) h₂, users_one]
    have hnow : Good K s' (tables s'.mem root + ((if doFree then frameOf (pte s'.mem root u) else 0) +
        ((if doFree then users s.mem root (u + 1) (v + n) else 0) + R))) := by
      rw [hsame u s' h₁ h₂ hc]
      refine Good.moves (hg.cast ?_) hc.moves
      rw [hsplit]
      abel
    rw [freed_succ h₁, ← hsame u s' h₁ h₂ hc]
    exact .mono (dropPte_ends rfl hnow hc.table (by omega) hd hval)
      fun _ s'' hc' => hc.trans hc' h₁ (Nat.le_succ u)
  · rw [users_self, ite_self]
    exact .refl ht

/-- `uvmunmap` of `n` pages from page number `v` on. -/
theorem uvmunmap_ends {doFree : Bool} {v n : ℕ}
    (hg : Good K s (tables s.mem root + ((if doFree then users s.mem root v (v + n) else 0) + R)))
    (ht : Table s.mem root) (hv : pgsize * (v + n) ≤ maxva) :
    Det.Ends E (uvmunmap K root (pgsize * v) n doFree) s
      fun _ s' => Cleared root v (v + n) (if doFree then users s.mem root v (v + n) else 0) s s' := by
  have hstop : (pgsize * v + n * pgsize) % 2 ^ 32 = pgsize * (v + n) := by
    simp only [pgsize, maxva] at *
    omega
  unfold uvmunmap
  rw [if_neg (by simp), hstop]
  refine unmapLoop_ends hg ht hv ?_
  simp only [pgsize, maxva, turns] at *
  omega

/-! ## `freewalk` -/

/-- There is nothing to do for a page without valid words. -/
theorem freeLoop_blank {child : ℕ → PhysM Unit} {t k : ℕ}
    (h : ∀ i < 1024, (s.mem.ld (t + 4 * i)).testBit vBit = false) (hk : k ≤ 1024) :
    freeLoop child t k s = .ok ((), s) := by
  induction k with
  | zero => rfl
  | succ k ih =>
    have hv := h (1024 - (k + 1)) (by omega)
    unfold freeLoop
    rw [loadWord_bind, if_neg (by rw [hv]; simp), if_neg (by rw [hv]; simp)]
    exact ih (by omega)

/-- The pages of the second level from index `i` on are given back. -/
theorem freeLoop_ends {d k : ℕ} (hk : k ≤ 1024)
    (hg : Good K s ({root} + dirs s.mem root (1024 - k) 1024 + R))
    (hword : ∀ i < 1024, 1024 - k ≤ i →
      s.mem.ld (root + 4 * i) = (dir s.mem root i).elim 0 fun t => t ||| pteV)
    (hblank : ∀ i < 1024, 1024 - k ≤ i → ∀ t, dir s.mem root i = some t →
      ∀ j < 1024, (s.mem.ld (t + 4 * j)).testBit vBit = false) :
    Det.Ends E (freeLoop (freewalk K (d + 1)) root k) s
      fun _ s' => s.Moves s' ({root} + dirs s.mem root (1024 - k) 1024) {root} := by
  induction k generalizing s with
  | zero =>
    rw [Nat.sub_zero, dirs_self, add_zero]
    exact .pure .refl
  | succ k ih =>
    have hi : 1024 - (k + 1) < 1024 := by omega
    have hi' : 1024 - (k + 1) + 1 = 1024 - k := by omega
    have hroot : root % pgsize = 0 := (hg.frame root (.inr (by simp))).aligned
    rw [dirs_succ hi, hi'] at hg ⊢
    unfold freeLoop
    refine .bind (.of_eq rfl ?_)
    rw [hword _ hi (by omega)]
    cases hd : dir s.mem root (1024 - (k + 1)) with
    | none =>
      rw [hd, show one none = 0 from rfl, zero_add] at hg
      simp only [Option.elim_none, Nat.zero_testBit, Bool.false_eq_true, false_and, if_false]
      rw [show one none = 0 from rfl, zero_add]
      exact ih (by omega) hg (fun i h₁ h₂ => hword i h₁ (by omega))
        fun i h₁ h₂ => hblank i h₁ (by omega)
    | some t =>
      rw [hd, show one (some t) = {t} from rfl] at hg
      have hframe : K.Frame t := hg.frame t (.inr (by simp))
      have hbits : (t ||| pteV).testBit rBit = false ∧ (t ||| pteV).testBit wBit = false ∧
          (t ||| pteV).testBit xBit = false := by
        have he : t ||| pteV = entry t 0 := by rw [entry, pa2pte_of_aligned hframe.aligned, Nat.or_zero]
        rw [he, entry_testBit hframe.aligned (by decide) (by decide),
          entry_testBit hframe.aligned (by decide) (by decide),
          entry_testBit hframe.aligned (by decide) (by decide)]
        decide
      obtain ⟨hval, hpa⟩ := valid_word hframe.aligned
      simp only [Option.elim_some, hval, hbits, hpa, Bool.false_eq_true, or_false, not_false_eq_true,
        and_self, if_true]
      -- the page is blank, so that it is only given back
      have hchild : freewalk K (d + 1) t s = .ok ((), { s with
          mem := s.mem.st t (s.freelist.headD 0), freelist := t :: s.freelist }) := by
        unfold freewalk
        rw [Det.bind_ok (freeLoop_blank (hblank _ hi (by omega) t hd) (Nat.le_refl _)), kfree_ok hframe]
      refine .bind (.of_eq hchild (.bind (.of_eq rfl ?_)))
      have hroot_t : root ≠ t := fun e => by
        have hn := (Multiset.nodup_add.1 hg.held_nodup).1
        refine Multiset.disjoint_left.1 (Multiset.nodup_add.1 hn).2.2 (Multiset.mem_singleton_self root) ?_
        simp [e]
      -- what the step leaves alone
      have hkeep : ∀ a, pgrounddown a ≠ t → ¬ (root + 4 * (1024 - (k + 1)) ≤ a ∧
          a < root + 4 * (1024 - (k + 1)) + 4) →
          (s.mem.st t (s.freelist.headD 0)).st (root + 4 * (1024 - (k + 1))) 0 a = s.mem a := by
        intro a h₁ h₂
        have := hframe.aligned
        rw [ByteMem.st_of_not_mem (by omega), ByteMem.st_of_not_mem]
        simp only [pgrounddown, pgsize] at h₁ this
        omega
      have hmv : s.Moves { s with
          mem := (s.mem.st t (s.freelist.headD 0)).st (root + 4 * (1024 - (k + 1))) 0
          freelist := t :: s.freelist } ({root} + {t}) {root} := by
        refine ⟨?_, fun a _ ha => hkeep a (fun e => ha (by simp [e])) fun hx => ha ?_⟩
        · simp only
          rw [← Multiset.cons_coe, ← Multiset.singleton_add]
          abel
        · have : pgrounddown a = root := by
            simp only [pgrounddown, pgsize] at hroot ⊢
            omega
          simp [this]
      have hdirs : ∀ i, 1024 - k ≤ i → i < 1024 →
          ((s.mem.st t (s.freelist.headD 0)).st (root + 4 * (1024 - (k + 1))) 0).ld (root + 4 * i) =
            s.mem.ld (root + 4 * i) := fun i h₁ h₂ =>
        ByteMem.ld_congr fun j hj => hkeep _ (by
          have := hframe.aligned
          simp only [pgrounddown, pgsize] at hroot this ⊢
          omega) (by omega)
      have hdir : ∀ i, 1024 - k ≤ i → i < 1024 →
          dir ((s.mem.st t (s.freelist.headD 0)).st (root + 4 * (1024 - (k + 1))) 0) root i =
            dir s.mem root i := fun i h₁ h₂ => by
        unfold dir
        rw [hdirs i h₁ h₂]
      have hds : dirs ((s.mem.st t (s.freelist.headD 0)).st (root + 4 * (1024 - (k + 1))) 0) root
          (1024 - k) 1024 = dirs s.mem root (1024 - k) 1024 := dirs_congr hdir
      have hg₁ : Good K s ({root} + {t} + (dirs s.mem root (1024 - k) 1024 + R)) := hg.cast (by abel)
      have hg' := hg₁.moves hmv
      rw [← hds] at hg'
      have hrec := ih (s := { s with
          mem := (s.mem.st t (s.freelist.headD 0)).st (root + 4 * (1024 - (k + 1))) 0
          freelist := t :: s.freelist }) (by omega) (hg'.cast (by rw [add_assoc])) ?_ ?_
      · refine .mono hrec fun _ s' hm => ?_
        rw [hds] at hm
        exact (((hmv.frame _).cast (by rw [add_assoc]; rfl) rfl).trans hm)
      · intro i h₁ h₂
        simp only
        rw [hdir i h₂ h₁, hdirs i h₂ h₁]
        exact hword i h₁ (by omega)
      · intro i h₁ h₂ t' hd' j hj
        simp only at hd' ⊢
        rw [hdir i h₂ h₁] at hd'
        have hmem : t' ∈ dirs s.mem root (1024 - k) 1024 := mem_dirs.2 ⟨i, h₂, h₁, hd'⟩
        have hframe' : K.Frame t' := hg.frame t' (.inr (by simp [hmem]))
        have hne : t' ≠ t := fun e => by
          have hn := (Multiset.nodup_add.1 hg.held_nodup).1
          have hn' := (Multiset.nodup_add.1 hn).2.1
          exact Multiset.disjoint_left.1 (Multiset.nodup_add.1 hn').2.2 (Multiset.mem_singleton_self t)
            (e ▸ hmem)
        have hne' : t' ≠ root := fun e => by
          have hn := (Multiset.nodup_add.1 hg.held_nodup).1
          refine Multiset.disjoint_left.1 (Multiset.nodup_add.1 hn).2.2
            (Multiset.mem_singleton_self root) (Multiset.mem_add.2 (.inr ?_))
          exact e ▸ hmem
        rw [ByteMem.ld_congr fun l hl => hkeep _ (by
          have := hframe.aligned
          have := hframe'.aligned
          simp only [pgrounddown, pgsize] at *
          omega) (by
          have := hframe'.aligned
          simp only [pgsize] at *
          omega)]
        exact hblank i h₁ (by omega) t' hd' j hj

/-- `freewalk` of a table that maps nothing gives its pages back. -/
theorem freewalk_ends {d : ℕ} (hg : Good K s (tables s.mem root + R)) (ht : Table s.mem root)
    (hz : ∀ v < 2 ^ 20, pte s.mem root v = 0) :
    Det.Ends E (freewalk K (d + 2) root) s fun _ s' => s.Moves s' (tables s.mem root) 0 := by
  unfold freewalk
  refine .bind (.mono (freeLoop_ends (Nat.le_refl _) hg (fun i hi _ => ht.word i hi) ?_)
    fun _ s' hm => ?_)
  · intro i hi _ t hd j hj
    have := hz (1024 * i + j) (by omega)
    unfold pte at this
    rw [show (1024 * i + j) / 1024 = i by omega, show (1024 * i + j) % 1024 = j by omega, hd] at this
    simp only [Option.elim_some] at this
    rw [this]
    rfl
  · have hframe : K.Frame root := hg.frame root (.inr (Multiset.mem_add.2 (.inl root_mem)))
    exact .of_eq (kfree_ok hframe) (hm.trans (moves_of_kfree hframe))

end Xv6.Vm
