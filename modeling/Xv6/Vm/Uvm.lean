import Xv6.Vm.Walk

/-!
# Growing, shrinking and copying a user address space

`uvmalloc` maps new pages from one size to another; when it runs out of memory it removes those that
it has mapped, so that the table says what it did before (`uvmalloc_ends`). `uvmdealloc` unmaps
(`uvmdealloc_ends`), `uvmcopy` gives a second table the same pages in frames of its own, or none
(`uvmcopy_ends`). The step that they share with `vmfault`, a frame that is allocated, filled and
mapped, or given back when it cannot be mapped, is `mapNew_ends`.
-/

namespace Xv6.Vm

open Transfer

variable {K : Layout} {E : Halt → Prop} {s s' s'' : Phys} {R : Multiset ℕ} {root va perm : ℕ}

/-- The number of pages of a size. -/
def pgs (sz : ℕ) : ℕ := (sz + pgsize - 1) / pgsize

theorem pgroundup_eq {sz : ℕ} (h : sz ≤ 2 ^ 32 - pgsize) : pgroundup sz = pgsize * pgs sz := by
  simp only [pgroundup, pgs, pgsize] at *
  omega

theorem lt_pgs {v sz : ℕ} : v < pgs sz ↔ pgsize * v < sz := by
  simp only [pgs, pgsize]
  omega

theorem pgs_mul (v : ℕ) : pgs (pgsize * v) = v := by
  simp only [pgs, pgsize]
  omega

theorem pgs_mono {a b : ℕ} (h : a ≤ b) : pgs a ≤ pgs b := by
  simp only [pgs, pgsize]
  omega

/-! ## A new page -/

/-- What an operation on other pages leaves alone: the pages of a table. -/
theorem Good.quiet {A A' : Multiset ℕ} (hg : Good K s (A + (tables s.mem root + R)))
    (hm : s.Moves s' A A') {a : ℕ} (ha : pgrounddown a ∈ tables s.mem root) : s'.mem a = s.mem a :=
  hm.keeps hg.nodup (Multiset.mem_add.2 (.inl ha))

/-- Page number `v` is mapped to frame `p`, which holds what `f` makes of it. -/
structure NewPage (K : Layout) (root v p w : ℕ) (f : ByteMem → ByteMem) (s s' : Phys) : Prop where
  table : Table s'.mem root
  words : ∀ u < 2 ^ 20, pte s'.mem root u = if u = v then w else pte s.mem root u
  kept : ∀ i < 1024, ∀ t, dir s.mem root i = some t → dir s'.mem root i = some t
  moves : s.Moves s' (tables s.mem root) (tables s'.mem root + {p})
  frame : K.Frame p
  fresh : p ∈ s.freelist
  fewer : s'.freelist.length < s.freelist.length
  data : ∀ a, pgrounddown a = p → s'.mem a = f s.mem a
  has : dir s'.mem root (v / 1024) ≠ none
  others : ∀ i < 1024, i ≠ v / 1024 → dir s'.mem root i = dir s.mem root i

/-- A frame is allocated, filled by `init` and mapped; it is given back when it cannot be mapped. -/
theorem mapNew_ends {α : Type} {Q : α → Phys → Prop} {A C : PhysM α} {B : ℕ → PhysM α}
    {init : ℕ → PhysM Unit} {f : ℕ → ByteMem → ByteMem}
    (hinit : ∀ p s, init p s = .ok ((), { s with mem := f p s.mem }))
    (hf : ∀ p m a, p % pgsize = 0 → pgrounddown a ≠ p → f p m a = m a)
    (hg : Good K s (tables s.mem root + R)) (ht : Table s.mem root) (hva : va < maxva)
    (hal : va % pgsize = 0) (hfree : (pte s.mem root (va / pgsize)).testBit vBit = false)
    (hperm : perm < pgsize)
    (hnone : ∀ s', ¬ Avail s (1 + need s.mem root (va / pgsize)) → Same s s' → Det.Ends E A s' Q)
    (hfail : ∀ s', ¬ Avail s (1 + need s.mem root (va / pgsize)) → s.Moves s' 0 0 →
      Det.Ends E C s' Q)
    (hok : ∀ p s', Avail s (1 + need s.mem root (va / pgsize)) →
      Took s s' (1 + need s.mem root (va / pgsize)) →
      NewPage K root (va / pgsize) p (entry p perm) (f p) s s' → Det.Ends E (B p) s' Q) :
    Det.Ends E (do
      match ← kalloc with
      | none => A
      | some p => do
        init p
        if ← mappages root va pgsize p perm then B p
        else do
          kfree K p
          C) s Q := by
  refine .bind (kalloc_ends (fun s' ha hs => hnone s' (fun h => ha ?_) hs)
    fun p s₁ ha htook hm hfl => ?_)
  · exact ⟨by have := h.1; omega, fun i hi => h.2 i (by omega)⟩
  have hmem : p ∈ s.freelist := by
    rw [hfl]
    exact List.mem_cons_self
  have hframe := hg.frame p (.inl hmem)
  have hlt : p < 2 ^ 32 := by
    have := hframe.high
    simp only [phystop] at this
    omega
  refine .bind (.of_eq (hinit p s₁) ?_)
  -- the state with the page in hand and filled
  obtain ⟨s₂, hs₂⟩ : ∃ s₂ : Phys, s₂ = { s₁ with mem := f p s₁.mem } := ⟨_, rfl⟩
  rw [← hs₂]
  have hm₂ : s₂.mem = f p s.mem := by rw [hs₂]; simp only; rw [hm]
  have hfl₂ : s.freelist = p :: s₂.freelist := by rw [hs₂]; exact hfl
  have htook₂ : Took s s₂ 1 := by rw [hs₂]; exact ⟨htook.freelist, htook.deny⟩
  have hmv : s.Moves s₂ 0 {p} := by
    refine ⟨?_, fun a hF _ => ?_⟩
    · rw [hfl₂, add_zero, ← Multiset.cons_coe, ← Multiset.singleton_add, add_comm]
    · rw [hm₂]
      exact hf p s.mem a hframe.aligned fun e => hF (e ▸ hmem)
  have hq : ∀ a, pgrounddown a ∈ tables s.mem root → s₂.mem a = s.mem a := fun a ha =>
    Good.quiet (hg.cast (zero_add _).symm) hmv ha
  have hap := hg.apart.aligned
  have htab := tables_congr hap hq
  have hg₂ : Good K s₂ (tables s₂.mem root + ({p} + R)) := by
    rw [htab, add_left_comm]
    exact (hg.cast (zero_add _).symm).moves hmv
  have hneed : need s₂.mem root (va / pgsize) = need s.mem root (va / pgsize) := by
    unfold need
    rw [dir_congr' hap hq (by simp only [maxva, pgsize] at *; omega)]
  have hv : va / pgsize < 2 ^ 20 := by
    simp only [maxva, pgsize] at *
    omega
  refine .bind (mappages_ends hg₂ (table_congr hap hq ht) hva hal (by rw [pte_congr hap hq hv]; exact hfree)
    hframe.aligned hlt hperm (fun s₃ ha₃ hs₃ => ?_) fun s₃ ha₃ htook₃ hmap => ?_)
  · -- the page goes back
    refine .bind (.of_eq (kfree_ok hframe) (hfail _ (fun h => ha₃ ?_) ?_))
    · rw [hneed]
      exact (htook₂.avail_add.1 h).2
    · refine hmv.trans (Moves.trans ?_ (moves_of_kfree hframe))
      exact hs₃.moves
  · rw [hneed] at ha₃ htook₃
    refine hok p s₃ (htook₂.avail_add.2 ⟨ha, ha₃⟩) (htook₂.trans htook₃)
      ⟨hmap.table, fun u hu => ?_, fun i hi t hd => hmap.kept i hi t ?_, ?_, hframe, hmem, ?_, ?_, hmap.has,
        fun i hi hne => ?_⟩
    · rw [hmap.words u hu, pte_congr hap hq hu]
    · rw [dir_congr' hap hq hi]
      exact hd
    · have h₁ := (hmv.frame (tables s.mem root)).cast (zero_add _) (add_comm _ _)
      have h₂ := hmap.moves.frame {p}
      rw [htab] at h₂
      exact h₁.trans h₂
    · rw [htook₃.freelist, List.length_drop, hfl₂, List.length_cons]
      omega
    · intro a ha
      rw [← hm₂]
      exact hmap.moves.keeps hg₂.nodup (by simp [ha])
    · rw [hmap.others i hi hne, dir_congr' hap hq hi]

/-! ## `uvmdealloc` -/

theorem uvmdealloc_ends {oldsz newsz : ℕ} (hle : newsz ≤ oldsz) (hmax : oldsz ≤ maxva)
    (hg : Good K s (tables s.mem root + (users s.mem root (pgs newsz) (pgs oldsz) + R)))
    (ht : Table s.mem root) :
    Det.Ends E (uvmdealloc K root oldsz newsz) s fun r s' => r = newsz ∧
      Cleared root (pgs newsz) (pgs oldsz) (users s.mem root (pgs newsz) (pgs oldsz)) s s' := by
  have hmono := pgs_mono hle
  have hbound : pgsize * pgs oldsz ≤ maxva := by
    simp only [pgs, pgsize, maxva] at *
    omega
  unfold uvmdealloc
  by_cases heq : newsz ≥ oldsz
  · obtain rfl : newsz = oldsz := by omega
    rw [if_pos heq, users_self]
    exact .pure ⟨rfl, .refl ht⟩
  rw [if_neg heq, pgroundup_eq (by simp only [pgsize, maxva] at *; omega),
    pgroundup_eq (by simp only [pgsize, maxva] at *; omega)]
  by_cases h : pgsize * pgs newsz < pgsize * pgs oldsz
  · have hn : (pgsize * pgs oldsz - pgsize * pgs newsz) / pgsize = pgs oldsz - pgs newsz := by
      rw [← Nat.mul_sub, mul_div_pgsize]
    have hadd : pgs newsz + (pgs oldsz - pgs newsz) = pgs oldsz := by omega
    have hg' : Good K s (tables s.mem root + ((if true then
        users s.mem root (pgs newsz) (pgs newsz + (pgs oldsz - pgs newsz)) else 0) + R)) := by
      rw [hadd]
      exact hg
    have hun := uvmunmap_ends (E := E) hg' ht (by rw [hadd]; exact hbound)
    rw [hadd] at hun
    rw [if_pos h, hn]
    exact .bind (.mono hun fun _ s' hc => .pure ⟨rfl, hc⟩)
  · have he : pgs newsz = pgs oldsz := by
      simp only [pgsize] at h
      omega
    rw [if_neg h, he, users_self]
    exact .pure ⟨rfl, .refl ht⟩

/-! ## Ranges of pages that are filled -/

/-- What a page is to hold, and its permissions. -/
structure Image where
  perm : ℕ
  byte : ℕ → UInt8

/-- Page numbers `o` to `c` are mapped to new frames that hold `img`, where it says so. -/
structure Built (K : Layout) (root o c : ℕ) (img : ℕ → Option Image) (s s' : Phys) : Prop where
  table : Table s'.mem root
  words : ∀ u < 2 ^ 20, u < o ∨ c ≤ u → pte s'.mem root u = pte s.mem root u
  gap : ∀ u, o ≤ u → u < c → img u = none → pte s'.mem root u = pte s.mem root u
  new : ∀ u, o ≤ u → u < c → ∀ g, img u = some g → ∃ p, K.Frame p ∧
    pte s'.mem root u = entry p g.perm ∧ ∀ i < pgsize, s'.mem (p + i) = g.byte i
  kept : ∀ i < 1024, ∀ t, dir s.mem root i = some t → dir s'.mem root i = some t
  moves : s.Moves s' (tables s.mem root) (tables s'.mem root + users s'.mem root o c)

namespace Built

variable {o c p : ℕ} {img : ℕ → Option Image} {g : Image}

theorem refl (ht : Table s.mem root) : Built K root o o img s s :=
  ⟨ht, fun _ _ _ => rfl, fun _ _ _ _ => rfl, fun u h₁ h₂ => absurd h₂ (by omega), fun _ _ _ h => h,
    by rw [users_self, add_zero]; exact .refl⟩

/-- A page that stays as it is. -/
theorem skip (h : Built K root o c img s s') (hoc : o ≤ c) (hc : c < 2 ^ 20) (himg : img c = none)
    (hval : (pte s'.mem root c).testBit vBit = false) : Built K root o (c + 1) img s s' := by
  refine ⟨h.table, fun u hu ho => h.words u hu (by omega), fun u h₁ h₂ hn => ?_, fun u h₁ h₂ g hg => ?_,
    h.kept, ?_⟩
  · by_cases huc : u = c
    · exact huc ▸ h.words c hc (.inr (Nat.le_refl _))
    · exact h.gap u h₁ (by omega) hn
  · refine h.new u h₁ ?_ g hg
    by_contra hno
    rw [show u = c by omega, himg] at hg
    cases hg
  · rw [users_succ hoc, frameOf_invalid hval, add_zero]
    exact h.moves

/-- The frames that are mapped when a page is added. -/
theorem users_new (hoc : o ≤ c) (hc : c < 2 ^ 20) (hperm : perm < pgsize) {f : ByteMem → ByteMem}
    (hn : NewPage K root c p (entry p perm) f s s') :
    users s'.mem root o (c + 1) = users s.mem root o c + {p} := by
  rw [users_succ hoc, hn.words c hc, if_pos rfl, frameOf_valid (entry_valid hn.frame.aligned hperm),
    pte2pa_entry hn.frame.aligned hperm,
    users_congr fun u h₁ h₂ => (hn.words u (by omega)).trans (if_neg (by omega))]

/-- A new page is one of those held. -/
theorem mem_users_new {a u : ℕ} (h₁ : o ≤ u) (h₂ : u < c) (hp : K.Frame p) (hperm : g.perm < pgsize)
    (hpte : pte s.mem root u = entry p g.perm) (ha : pgrounddown a = p) :
    pgrounddown a ∈ users s.mem root o c := by
  refine mem_users.2 ⟨u, h₁, h₂, ?_⟩
  rw [hpte, frameOf_valid (entry_valid hp.aligned hperm), pte2pa_entry hp.aligned hperm, ha]
  exact Multiset.mem_singleton_self p

/-- One page more. -/
theorem succ (h : Built K root o c img s s') (hg : Good K s' (tables s'.mem root +
      (users s'.mem root o c + R))) (hoc : o ≤ c) (hc : c < 2 ^ 20) {f : ByteMem → ByteMem}
    (hperm : ∀ u g, img u = some g → g.perm < pgsize) (himg : img c = some g)
    (hf : ∀ i < pgsize, f s'.mem (p + i) = g.byte i)
    (hn : NewPage K root c p (entry p g.perm) f s' s'') : Built K root o (c + 1) img s s'' := by
  have hold : ∀ u < 2 ^ 20, u ≠ c → pte s''.mem root u = pte s'.mem root u := fun u hu hne => by
    rw [hn.words u hu, if_neg hne]
  refine ⟨hn.table, fun u hu ho => ?_, fun u h₁ h₂ hnone => ?_, fun u h₁ h₂ g' hg' => ?_,
    fun i hi t hd => hn.kept i hi t (h.kept i hi t hd), ?_⟩
  · rw [hold u hu (by omega), h.words u hu (by omega)]
  · have huc : u ≠ c := fun e => by
      rw [e, himg] at hnone
      cases hnone
    rw [hold u (by omega) huc, h.gap u h₁ (by omega) hnone]
  · by_cases huc : u = c
    · subst huc
      obtain rfl : g = g' := Option.some.inj (himg.symm.trans hg')
      refine ⟨p, hn.frame, by rw [hn.words u hc, if_pos rfl], fun i hi => ?_⟩
      rw [hn.data _ (pgrounddown_add hn.frame.aligned hi), hf i hi]
    · obtain ⟨q, hq, hpte, hz⟩ := h.new u h₁ (by omega) g' hg'
      refine ⟨q, hq, by rw [hold u (by omega) huc, hpte], fun i hi => ?_⟩
      rw [← hz i hi]
      exact hn.moves.keeps hg.nodup (Multiset.mem_add.2 (.inl (mem_users_new h₁ (by omega) hq
        (hperm u g' hg') hpte (pgrounddown_add hq.aligned hi))))
  · rw [users_new hoc hc (hperm c g himg) hn]
    exact h.moves.trans ((hn.moves.frame _).cast rfl (by abel))

/-- The new pages are removed again. -/
theorem undo {D : Multiset ℕ} (h : Built K root o c img s s') (ht : Table s.mem root)
    (hfree : ∀ u, o ≤ u → u < c → (pte s.mem root u).testBit vBit = false)
    (hD : D = users s'.mem root o c) (hc : Cleared root o c D s' s'') : Grown root s s'' := by
  subst hD
  refine ⟨hc.table, fun u hu => ?_, h.moves.trans hc.moves, fun i hi t hd => ?_⟩
  · rw [hc.words u hu]
    by_cases hu' : o ≤ u ∧ u < c
    · rw [if_pos hu']
      exact ((ht.leaf u hu).resolve_right (by rw [hfree u hu'.1 hu'.2]; simp)).symm
    · rw [if_neg hu']
      exact h.words u hu (by omega)
  · rw [hc.dirs i hi]
    exact h.kept i hi t hd

/-- Operations on free pages do not matter. -/
theorem of_moves (h : Built K root o c img s s')
    (hg : Good K s' (tables s'.mem root + (users s'.mem root o c + R))) (hc : c ≤ 2 ^ 20)
    (hperm : ∀ u g, img u = some g → g.perm < pgsize) (hm : s'.Moves s'' 0 0) :
    Built K root o c img s s'' ∧ users s''.mem root o c = users s'.mem root o c ∧
      tables s''.mem root = tables s'.mem root := by
  have hg₀ := hg.cast (zero_add _).symm
  have hq : ∀ a, pgrounddown a ∈ tables s'.mem root → s''.mem a = s'.mem a := fun a ha =>
    Good.quiet hg₀ hm ha
  have hap := hg.apart.aligned
  have hus : users s''.mem root o c = users s'.mem root o c :=
    users_congr fun u _ h₂ => pte_congr hap hq (by omega)
  have htab := tables_congr hap hq
  refine ⟨⟨table_congr hap hq h.table, fun u hu ho => ?_, fun u h₁ h₂ hnone => ?_,
    fun u h₁ h₂ g hg' => ?_, fun i hi t hd => ?_, ?_⟩, hus, htab⟩
  · rw [pte_congr hap hq hu]
    exact h.words u hu ho
  · rw [pte_congr hap hq (by omega)]
    exact h.gap u h₁ h₂ hnone
  · obtain ⟨p, hp, hpte, hz⟩ := h.new u h₁ h₂ g hg'
    refine ⟨p, hp, by rw [pte_congr hap hq (by omega), hpte], fun i hi => ?_⟩
    rw [← hz i hi]
    exact hm.keeps hg₀.nodup (Multiset.mem_add.2 (.inr (Multiset.mem_add.2 (.inl
      (mem_users_new h₁ h₂ hp (hperm u g hg') hpte (pgrounddown_add hp.aligned hi))))))
  · rw [dir_congr' hap hq hi]
    exact h.kept i hi t hd
  · rw [hus, htab]
    exact h.moves.trans ((hm.frame _).cast (zero_add _) (zero_add _))

end Built

/-! ## `uvmalloc` -/

/-- Page numbers `o` to `c` are mapped to new frames full of zeros. -/
abbrev Filled (K : Layout) (root o c perm : ℕ) (s s' : Phys) : Prop :=
  Built K root o c (fun _ => some ⟨perm, fun _ => 0⟩) s s'

theorem zeroPage_keeps (p : ℕ) (m : ByteMem) (a : ℕ) (hp : p % pgsize = 0)
    (ha : pgrounddown a ≠ p) : m.fill p pgsize 0 a = m a := by
  refine if_neg ?_
  simp only [pgrounddown, pgsize] at *
  omega

/-- What `uvmalloc` does when it fails at page number `c`, from a state in which only free pages have
changed. -/
theorem allocUndo_ends {Q : ℕ → Phys → Prop} {s₀ : Phys} {o c : ℕ} (hf : Filled K root o c perm s₀ s)
    (hg : Good K s (tables s.mem root + (users s.mem root o c + R))) (ht : Table s₀.mem root)
    (hoc : o ≤ c) (hmax : c ≤ 2 ^ 19)
    (hold : ∀ u, o ≤ u → u < c → (pte s₀.mem root u).testBit vBit = false) (hperm : perm < pgsize)
    (hfail : ∀ s', Grown root s₀ s' → Q 0 s') (hm : s.Moves s' 0 0) :
    Det.Ends E (do
      let _ ← uvmdealloc K root (pgsize * c) (pgsize * o)
      return 0) s' Q := by
  obtain ⟨hf', hus, htab⟩ := hf.of_moves hg (by omega) (fun _ _ he => by cases he; exact hperm) hm
  have hg' : Good K s' (tables s'.mem root +
      (users s'.mem root (pgs (pgsize * o)) (pgs (pgsize * c)) + R)) := by
    rw [pgs_mul, pgs_mul, hus, htab]
    exact ((hg.cast (zero_add _).symm).moves hm).cast (zero_add _)
  refine .bind (.mono (uvmdealloc_ends (Nat.mul_le_mul_left _ hoc)
    (by simp only [pgsize, maxva]; omega) hg' hf'.table) fun _ s'' hc => .pure (hfail s'' ?_))
  have hc' := hc.2
  rw [pgs_mul, pgs_mul] at hc'
  exact hf'.undo ht hold rfl hc'

/-- The loop of `uvmalloc` at page number `c`, `s₀` being the state at its start. It stops at the
latest when the free pages run out, so that pages beyond those do not matter. -/
theorem allocLoop_ends {Q : ℕ → Phys → Prop} {s₀ : Phys} {o c newsz k xperm : ℕ}
    (hf : Filled K root o c (pteR ||| pteU ||| xperm) s₀ s)
    (hg : Good K s (tables s.mem root + (users s.mem root o c + R))) (ht : Table s₀.mem root)
    (hoc : o ≤ c) (hcn : c ≤ pgs newsz) (hmax : c ≤ 2 ^ 19)
    (hold : ∀ u, o ≤ u → u < c → (pte s₀.mem root u).testBit vBit = false)
    (hroom : ∀ v, c ≤ v → v < pgs newsz → v < c + s.freelist.length →
      v < 2 ^ 19 ∧ (pte s.mem root v).testBit vBit = false)
    (hperm : pteR ||| pteU ||| xperm < pgsize) (hk : pgs newsz < k + c)
    (hok : ∀ s', Filled K root o (pgs newsz) (pteR ||| pteU ||| xperm) s₀ s' → Q newsz s')
    (hfail : ∀ s', Grown root s₀ s' → Q 0 s') :
    Det.Ends E (allocLoop K root (pgsize * o) newsz xperm k (pgsize * c)) s Q := by
  induction k generalizing c s with
  | zero => omega
  | succ k ih =>
    have undo : ∀ s', s.Moves s' 0 0 → Det.Ends E (do
        let _ ← uvmdealloc K root (pgsize * c) (pgsize * o)
        return 0) s' Q := fun s' hm => allocUndo_ends hf hg ht hoc hmax hold hperm hfail hm
    unfold allocLoop
    by_cases hlt : c < pgs newsz
    · rw [if_pos (lt_pgs.1 hlt)]
      by_cases hempty : s.freelist = []
      · -- no page is left
        refine .bind (kalloc_ends (fun s' _ hs => undo s' hs.moves) fun p s' _ _ _ hfl => ?_)
        rw [hempty] at hfl
        cases hfl
      · have hlen : 0 < s.freelist.length := List.length_pos_iff.2 hempty
        obtain ⟨hc19, hfree⟩ := hroom c (Nat.le_refl _) hlt (by omega)
        have hdiv := mul_div_pgsize c
        refine mapNew_ends (fun _ _ => rfl) zeroPage_keeps hg hf.table
          (by simp only [pgsize, maxva]; omega) (by simp) (by rw [hdiv]; exact hfree) hperm
          (fun s' _ hs => undo s' hs.moves) (fun s' _ hm => undo s' hm) fun p s' _ _ hn => ?_
        rw [hdiv] at hn
        have hf' := hf.succ hg hoc (by omega) (fun _ _ he => by cases he; exact hperm) rfl
          (fun i hi => if_pos ⟨Nat.le_add_right _ _, Nat.add_lt_add_left hi _⟩) hn
        have hnext : nextPage (pgsize * c) = pgsize * (c + 1) := nextPage_mul (by omega)
        have hg' : Good K s' (tables s'.mem root + (users s'.mem root o (c + 1) + R)) := by
          rw [Built.users_new hoc (by omega) hperm hn]
          exact (hg.moves hn.moves).cast (by abel)
        rw [hnext]
        refine ih hf' hg' (by omega) hlt (by omega) (fun u h₁ h₂ => ?_) (fun v h₁ h₂ h₃ => ?_) (by omega)
        · by_cases huc : u = c
          · rw [huc, ← hf.words c (by omega) (.inr (Nat.le_refl _))]
            exact hfree
          · exact hold u h₁ (by omega)
        · have hfewer := hn.fewer
          obtain ⟨h₄, h₅⟩ := hroom v (by omega) h₂ (by omega)
          refine ⟨h₄, ?_⟩
          rw [hn.words v (by omega), if_neg (by omega)]
          exact h₅
    · rw [if_neg fun h => hlt (lt_pgs.2 h)]
      have hc : c = pgs newsz := by omega
      exact .pure (hok s (hc ▸ hf))

/-- `uvmalloc`, from a state in which the pages that it can get to are not mapped. -/
theorem uvmalloc_ends {Q : ℕ → Phys → Prop} {oldsz newsz xperm : ℕ}
    (hg : Good K s (tables s.mem root + R)) (ht : Table s.mem root) (hle : oldsz ≤ newsz)
    (hmax : oldsz ≤ maxva) (hnew : newsz < 2 ^ 32)
    (hroom : ∀ v, pgs oldsz ≤ v → v < pgs newsz → v < pgs oldsz + s.freelist.length →
      v < 2 ^ 19 ∧ (pte s.mem root v).testBit vBit = false)
    (hperm : pteR ||| pteU ||| xperm < pgsize)
    (hok : ∀ s', Filled K root (pgs oldsz) (pgs newsz) (pteR ||| pteU ||| xperm) s s' → Q newsz s')
    (hfail : ∀ s', Grown root s s' → Q 0 s') :
    Det.Ends E (uvmalloc K root oldsz newsz xperm) s Q := by
  unfold uvmalloc
  rw [if_neg (by omega), pgroundup_eq (by simp only [pgsize, maxva] at *; omega)]
  refine allocLoop_ends (.refl ht) (by rw [users_self, zero_add]; exact hg) ht (Nat.le_refl _)
    (pgs_mono hle) ?_ (fun u h₁ h₂ => absurd h₂ (by omega)) hroom hperm ?_ hok hfail
  · simp only [pgs, pgsize, maxva] at *
    omega
  · simp only [pgs, pgsize, turns] at *
    omega

end Xv6.Vm
