import Xv6.Vm.Copy
import Xv6.Vm.Create

/-!
# Images under construction

`exec` makes an address space page by page. `Img` is what it makes, as a value: a size, the flags of
each page and the bytes; the steps are functions on it, `grow` for `uvmalloc`, `load` for bytes that
are stored and `guard` for `uvmclear`. `Building K root tf g s₀ s` says that the table at `root` holds
the image `g`, all its pages mapped, and that nothing but free pages has been used for it since `s₀`.
Since every page is mapped, memory runs out before an image can get to the trap frame
(`Building.pgs_le`).
-/

namespace Xv6.Vm

open Transfer

/-- A user image. -/
structure Img where
  sz : ℕ
  /-- The flags of each page, but for `PTE_V`. -/
  perm : ℕ → ℕ
  byte : ℕ → UInt8

namespace Img

/-- Nothing. -/
def empty : Img := ⟨0, fun _ => 0, fun _ => 0⟩

/-- Pages of zeros are added. -/
def grow (g : Img) (newsz perm : ℕ) : Img where
  sz := newsz
  perm v := if v < pgs g.sz then g.perm v else perm
  byte a := if a / pgsize < pgs g.sz then g.byte a else 0

/-- Bytes are stored. -/
def load (g : Img) (va : ℕ) (l : List UInt8) : Img :=
  { g with byte := fun a => if va ≤ a ∧ a < va + l.length then l.getD (a - va) 0 else g.byte a }

/-- A page is taken from the user. -/
def guard (g : Img) (v : ℕ) : Img :=
  { g with perm := Function.update g.perm v (g.perm v &&& (2 ^ 32 - 1 - pteU)) }

theorem load_nil (g : Img) (va : ℕ) : g.load va [] = g := by
  unfold load
  congr 1
  funext a
  exact if_neg (by simp)

/-- Stores one behind the other. -/
theorem load_load (g : Img) (va : ℕ) (l l' : List UInt8) :
    (g.load va l).load (va + l.length) l' = g.load va (l ++ l') := by
  unfold load
  congr 1
  funext a
  simp only
  rw [List.length_append]
  by_cases h₁ : va ≤ a ∧ a < va + l.length
  · rw [if_neg (by omega), if_pos h₁, if_pos (by omega), List.getD_append _ _ _ _ (by omega)]
  · rw [if_neg h₁]
    by_cases h₂ : va + l.length ≤ a ∧ a < va + l.length + l'.length
    · rw [if_pos h₂, if_pos (by omega), List.getD_append_right _ _ _ _ (by omega), Nat.sub_add_eq]
    · rw [if_neg h₂, if_neg (by omega)]

end Img

/-- The table at `root` holds an image. -/
structure Shape (K : Layout) (root tf : ℕ) (g : Img) (m : ByteMem) : Prop where
  space : Space K m root g.sz tf
  page : ∀ v < pgs g.sz, ∃ p, K.Frame p ∧ pte m root v = entry p (g.perm v)
  perm : ∀ v < pgs g.sz, g.perm v < pgsize
  byte : ∀ a, a / pgsize < pgs g.sz → byteAt m root a = some (g.byte a)

/-- The table at `root` holds an image, made of pages that were free in `s₀`. -/
structure Building (K : Layout) (root tf : ℕ) (g : Img) (s₀ s : Phys) : Prop extends
    Shape K root tf g s.mem where
  moves : s₀.Moves s 0 (tables s.mem root + users s.mem root 0 (pgs g.sz))

variable {K : Layout} {E : Halt → Prop} {s₀ s s' : Phys} {m m' : ByteMem} {R : Multiset ℕ} {g : Img}
  {root tf v : ℕ}

namespace Shape

theorem testBit (h : Shape K root tf g m) (hv : v < pgs g.sz) {i : ℕ} (hi : i < 12) :
    (pte m root v).testBit i = (g.perm v ||| pteV).testBit i := by
  obtain ⟨p, hp, he⟩ := h.page v hv
  rw [he, entry_testBit hp.aligned (h.perm v hv) hi]

theorem valid (h : Shape K root tf g m) (hv : v < pgs g.sz) : (pte m root v).testBit vBit = true := by
  rw [h.testBit hv (by decide), Nat.testBit_or]
  exact Bool.or_true _

theorem testBit_of_pos (h : Shape K root tf g m) (hv : v < pgs g.sz) {i : ℕ} (hi : i < 12)
    (hpos : 0 < i) : (pte m root v).testBit i = (g.perm v).testBit i := by
  have hz : pteV.testBit i = false := by
    rw [show pteV = 2 ^ 0 from rfl, Nat.testBit_two_pow_of_ne (by omega)]
  rw [h.testBit hv hi, Nat.testBit_or, hz, Bool.or_false]

theorem userPage (h : Shape K root tf g m) (hv : v < pgs g.sz) (hu : (g.perm v).testBit uBit = true) :
    UserPage m root v := ⟨h.valid hv, by rw [h.testBit_of_pos hv (by decide) (by decide)]; exact hu⟩

/-- An image does not depend on other memory. -/
theorem congr (h : Shape K root tf g m) (hal : ∀ p ∈ tables m root, p % pgsize = 0)
    (hq : ∀ a, pgrounddown a ∈ tables m root + users m root 0 (pgs g.sz) → m' a = m a) :
    Shape K root tf g m' := by
  have hpg := pgs_le_tfPage h.space.size
  have htf : tfPage = 16125 := by decide
  have ht : ∀ a, pgrounddown a ∈ tables m root → m' a = m a := fun a ha =>
    hq a (Multiset.mem_add.2 (.inl ha))
  refine ⟨h.space.congr hal ht, fun v hv => ?_, h.perm, fun a ha => ?_⟩
  · rw [pte_congr hal ht (by omega)]
    exact h.page v hv
  · rw [← h.byte a ha]
    unfold byteAt
    rw [pte_congr hal ht (by omega), if_pos (h.valid ha), if_pos (h.valid ha), hq]
    rw [pgrounddown_pte2pa]
    refine Multiset.mem_add.2 (.inr (mem_users.2 ⟨_, Nat.zero_le _, ha, ?_⟩))
    rw [frameOf_valid (h.valid ha)]
    exact Multiset.mem_singleton_self _

end Shape

/-- As many frames as there are pages, when all are mapped. -/
theorem card_users {n : ℕ} (h : ∀ v < n, (pte m root v).testBit vBit = true) :
    (users m root 0 n).card = n := by
  induction n with
  | zero => rw [users_self, Multiset.card_zero]
  | succ n ih =>
    rw [users_succ (Nat.zero_le n), Multiset.card_add, ih fun v hv => h v (by omega),
      frameOf_valid (h n (by omega)), Multiset.card_singleton]

/-- `uvmclear` clears one bit. -/
theorem entry_guard {p perm : ℕ} (hp : K.Frame p) :
    entry p perm &&& (2 ^ 32 - 1 - pteU) = entry p (perm &&& (2 ^ 32 - 1 - pteU)) := by
  have hbit : ∀ i : Fin 32, 12 ≤ i.val → (2 ^ 32 - 1 - pteU).testBit i = true := by decide
  have hpa : p &&& (2 ^ 32 - 1 - pteU) = p := by
    refine Nat.eq_of_testBit_eq fun i => ?_
    rw [Nat.testBit_and]
    by_cases hlow : i < 12
    · rw [show p = 2 ^ 12 * (p / 2 ^ 12) by have := hp.aligned; simp only [pgsize] at this; omega,
        Nat.testBit_two_pow_mul, decide_eq_false (by omega)]
      rfl
    · by_cases hhigh : i < 32
      · rw [hbit ⟨i, hhigh⟩ (by simp only; omega), Bool.and_true]
      · rw [Nat.testBit_lt_two_pow (lt_of_lt_of_le (show p < 2 ^ 32 by
          have := hp.high
          simp only [phystop] at this
          omega) (Nat.pow_le_pow_right (by decide) (by omega)))]
        rfl
  unfold entry
  rw [Nat.and_or_distrib_right, Nat.and_or_distrib_right, pa2pte_of_aligned hp.aligned, hpa]
  rfl

namespace Building

section

variable (hg₀ : Good K s₀ ({tf} + R)) (h : Building K root tf g s₀ s)

include hg₀ h

theorem good : Good K s (tables s.mem root + (frames s.mem root g.sz tf + R)) := by
  refine ((hg₀.cast (zero_add _).symm).moves h.moves).cast ?_
  unfold frames
  abel

/-- Memory runs out long before the trap frame. -/
theorem pgs_le : pgs g.sz + s.freelist.length ≤ 15995 := by
  have hcard := (h.good hg₀).card_le
  unfold frames tables at hcard
  simp only [Multiset.card_add, Multiset.card_singleton, card_users fun v hv => h.valid hv] at hcard
  omega

/-- The image is given back. -/
theorem free : Det.Ends E (procFreepagetable K root g.sz) s fun _ s' => s₀.Moves s' 0 0 := by
  refine .mono (procFreepagetable_ends (R := {tf} + R) h.space.size ?_ h.space.table h.space.only)
    fun _ s' hm => h.moves.trans hm
  refine (h.good hg₀).cast ?_
  unfold frames
  abel

/-- The table alone has grown. -/
theorem grown (hgr : Grown root s s') : Building K root tf g s₀ s' := by
  obtain ⟨hsp, hfr⟩ := h.space.grown hgr
  have hpg := h.space.pgs_le_num
  refine ⟨⟨hsp, fun v hv => ?_, h.perm, fun a ha => ?_⟩, ?_⟩
  · rw [hgr.words v (by omega)]
    exact h.page v hv
  · rw [← h.byte a ha]
    exact h.space.byteAt_kept (h.good hg₀) hgr.moves (by omega) (hgr.words _ (by omega))
  · rw [users_congr fun u _ hu => hgr.words u (by omega)]
    exact h.moves.trans (hgr.moves.frame _)

/-- Pages have been added. -/
theorem filled {newsz perm : ℕ} (hle : g.sz ≤ newsz) (hperm : perm < pgsize)
    (hr : (perm ||| pteV).testBit rBit = true)
    (hf : Filled K root (pgs g.sz) (pgs newsz) perm s s') :
    Building K root tf (g.grow newsz perm) s₀ s' := by
  have hpg := h.space.pgs_le
  have htf : tfPage = 16125 := by decide
  have hmono := pgs_mono hle
  have hall : ∀ v < pgs newsz, v < 2 ^ 20 → ∃ p, K.Frame p ∧
      pte s'.mem root v = entry p ((g.grow newsz perm).perm v) := fun v hv hlt => by
    by_cases hold : v < pgs g.sz
    · rw [hf.words v hlt (.inl hold), show (g.grow newsz perm).perm v = g.perm v from if_pos hold]
      exact h.page v hold
    · obtain ⟨p, hp, he, -⟩ := hf.new v (by omega) hv _ rfl
      exact ⟨p, hp, by rw [he, show (g.grow newsz perm).perm v = perm from if_neg hold]⟩
  have hpermlt : ∀ v, v < pgs newsz → (g.grow newsz perm).perm v < pgsize := fun v _ => by
    by_cases hold : v < pgs g.sz
    · rw [show (g.grow newsz perm).perm v = g.perm v from if_pos hold]
      exact h.perm v hold
    · rw [show (g.grow newsz perm).perm v = perm from if_neg hold]
      exact hperm
  have hus : users s'.mem root 0 (pgs g.sz) = users s.mem root 0 (pgs g.sz) :=
    users_congr fun u _ hu => hf.words u (by omega) (.inl hu)
  -- the frames in hand bound the size
  have hmax : newsz ≤ trapframe := by
    have hgood := (h.good hg₀).moves hf.moves
    have hn : pgs newsz ≤ 15997 := by
      by_contra hbig
      have hval : ∀ v < 15998, (pte s'.mem root v).testBit vBit = true := fun v hv => by
        obtain ⟨p, hp, he⟩ := hall v (by omega) (by omega)
        rw [he]
        exact entry_valid hp.aligned (hpermlt v (by omega))
      have hcard := hgood.card_le
      have hcount : (users s'.mem root 0 (pgs g.sz) + users s'.mem root (pgs g.sz) (pgs newsz)).card =
          (users s'.mem root 0 15998 + users s'.mem root 15998 (pgs newsz)).card := by
        rw [← users_split (Nat.zero_le _) hmono, ← users_split (Nat.zero_le _) (by omega)]
      unfold frames at hcard
      simp only [Multiset.card_add, card_users hval, hus] at hcount hcard
      omega
    simp only [pgs, trapframe, trampoline, pgsize] at hn ⊢
    omega
  have hpg' := pgs_le_tfPage hmax
  refine ⟨⟨h.space.built hf hle hmax (fun _ _ he => by cases he; exact hperm)
    fun _ _ _ he => by cases he; exact hr, fun v hv => hall v hv ?_, hpermlt, fun a ha => ?_⟩, ?_⟩
  · have : v < pgs newsz := hv
    omega
  · have ha' : a / pgsize < pgs newsz := ha
    by_cases hold : a / pgsize < pgs g.sz
    · rw [show (g.grow newsz perm).byte a = g.byte a from if_pos hold, ← h.byte a hold]
      exact h.space.byteAt_kept (h.good hg₀) hf.moves (by omega) (hf.words _ (by omega) (.inl hold))
    · obtain ⟨p, hp, he, hz⟩ := hf.new (a / pgsize) (by omega) ha' _ rfl
      unfold byteAt
      rw [he, if_pos (entry_valid hp.aligned hperm), pte2pa_entry hp.aligned hperm,
        hz _ (Nat.mod_lt _ (by decide)), show (g.grow newsz perm).byte a = 0 from if_neg hold]
  · show s₀.Moves s' 0 (tables s'.mem root + users s'.mem root 0 (pgs newsz))
    rw [users_split (Nat.zero_le _) hmono, hus]
    exact h.moves.trans ((hf.moves.frame _).cast rfl (by abel))

/-- `uvmalloc`. -/
theorem uvmalloc {Q : ℕ → Phys → Prop} {newsz xperm : ℕ} (hnew : newsz < 2 ^ 32)
    (hperm : pteR ||| pteU ||| xperm < pgsize)
    (hr : (pteR ||| pteU ||| xperm ||| pteV).testBit rBit = true)
    (hless : newsz < g.sz → Q g.sz s)
    (hok : ∀ s', g.sz ≤ newsz → Building K root tf (g.grow newsz (pteR ||| pteU ||| xperm)) s₀ s' →
      Q newsz s')
    (hfail : ∀ s', Building K root tf g s₀ s' → Q 0 s') :
    Det.Ends E (Vm.uvmalloc K root g.sz newsz xperm) s Q := by
  by_cases hlt : newsz < g.sz
  · unfold Vm.uvmalloc
    rw [if_pos hlt]
    exact .pure (hless hlt)
  · have hcount := h.pgs_le hg₀
    have hsize := h.space.size
    have htf : tfPage = 16125 := by decide
    refine uvmalloc_ends (h.good hg₀) h.space.table (by omega)
      (by simp only [trapframe, trampoline, pgsize, maxva] at *; omega) hnew (fun v h₁ _ h₃ => ?_) hperm
      (fun s' hf => hok s' (by omega) (h.filled hg₀ (by omega) hperm hr hf))
      fun s' hgr => hfail s' (h.grown hg₀ hgr)
    exact ⟨by omega, h.space.unmapped h₁ (by omega)⟩

/-- Bytes are stored in a page of the user. -/
theorem poke {l : List UInt8} (off : ℕ) (hv : v < pgs g.sz) (hu : (g.perm v).testBit uBit = true)
    (hoff : off + l.length ≤ pgsize) :
    Building K root tf (g.load (pgsize * v + off) l) s₀
      { s with mem := s.mem.write (pte2pa (pte s.mem root v) + off) l } := by
  have hpg := h.space.pgs_le_num
  have hpage := h.userPage hv hu
  have hcp := copied_poke h.space (h.good hg₀) off (by omega) hpage hoff
  have hw : ∀ u < pgs g.sz, pte (s.mem.write (pte2pa (pte s.mem root v) + off) l) root u =
      pte s.mem root u := fun u hu' => hcp.words u (by omega) (h.valid hu')
  refine ⟨⟨hcp.space, fun u hu' => ?_, h.perm, fun a ha => ?_⟩, ?_⟩
  · rw [hw u hu']
    exact h.page u hu'
  · have ha' : a / pgsize < pgs g.sz := ha
    have hlook := hcp.looks a (by simp only [pgsize] at *; omega)
    have hseen : seen s.mem root g.sz a = some (g.byte a) := by
      rw [← h.byte a ha']
      unfold seen byteAt
      rw [if_pos (h.valid ha'), if_pos (h.valid ha')]
    have hval : (pte (s.mem.write (pte2pa (pte s.mem root v) + off) l) root (a / pgsize)).testBit vBit =
        true := by
      rw [hw _ ha']
      exact h.valid ha'
    unfold seen put at hlook
    simp only at hlook
    rw [if_pos hval] at hlook
    unfold byteAt
    rw [if_pos hval, hlook]
    unfold Img.load
    simp only
    split
    · next hin =>
      rw [List.getD_eq_getElem?_getD, List.getElem?_eq_getElem (by omega)]
      rfl
    · exact hseen
  · have hq : ∀ a, pgrounddown a ∈ tables s.mem root →
        s.mem.write (pte2pa (pte s.mem root v) + off) l a = s.mem a := fun a ha =>
      poke_quiet h.space (h.good hg₀) off (by omega) hpage hoff ha
    show s₀.Moves _ 0 (tables (s.mem.write (pte2pa (pte s.mem root v) + off) l) root +
      users (s.mem.write (pte2pa (pte s.mem root v) + off) l) root 0 (pgs g.sz))
    rw [tables_congr (h.good hg₀).apart.aligned hq, users_congr fun u _ hu' => hw u hu']
    refine h.moves.trans (moves_of_write fun a ha => write_of_ne (pte2pa_aligned _) hoff fun e => ha ?_)
    rw [e]
    exact Multiset.mem_add.2 (.inr (h.space.user_frame (by omega) hpage))

/-- The flags of a page are changed. -/
theorem reflag {p perm : ℕ} (hv : v < pgs g.sz) (hp : K.Frame p)
    (he : pte s.mem root v = entry p (g.perm v)) (hperm : perm < pgsize)
    (hr : perm.testBit rBit = true) (hm : Mapped root v (entry p perm) s s') :
    Building K root tf { g with perm := Function.update g.perm v perm } s₀ s' := by
  have hpg := h.space.pgs_le
  have htf : tfPage = 16125 := by decide
  have htr : trampPage = 16126 := by decide
  have hother : ∀ u < 2 ^ 20, u ≠ v → pte s'.mem root u = pte s.mem root u := fun u hu hne =>
    (hm.words u hu).trans (if_neg hne)
  have hself : pte s'.mem root v = entry p perm := (hm.words v (by omega)).trans (if_pos rfl)
  have hframe : ∀ u < pgs g.sz, pte2pa (pte s'.mem root u) = pte2pa (pte s.mem root u) :=
    fun u hu => by
      by_cases huv : u = v
      · rw [huv, he, hself, pte2pa_entry hp.aligned (h.perm v hv), pte2pa_entry hp.aligned hperm]
      · rw [hother u (by omega) huv]
  have hval : ∀ u < pgs g.sz, (pte s'.mem root u).testBit vBit = true := fun u hu => by
    by_cases huv : u = v
    · rw [huv, hself]
      exact entry_valid hp.aligned hperm
    · rw [hother u (by omega) huv]
      exact h.valid hu
  have hspace : Space K s'.mem root g.sz tf := by
    refine ⟨hm.table, h.space.size, ?_, ?_, fun u hu hu' => ?_, fun u hu hu' => ?_⟩
    · rw [hother _ (by decide) (by omega)]
      exact h.space.tramp
    · rw [hother _ (by decide) (by omega)]
      exact h.space.frame
    · by_cases huv : u = v
      · exact .inl (huv ▸ hv)
      · rw [hother u hu huv] at hu'
        exact h.space.only u hu hu'
    · by_cases huv : u = v
      · rw [huv, hself, entry_testBit hp.aligned hperm (by decide), Nat.testBit_or, hr]
        rfl
      · rw [hother u (by omega) huv] at hu' ⊢
        exact h.space.read u hu hu'
  refine ⟨⟨hspace, fun u hu => ?_, fun u hu => ?_, fun a ha => ?_⟩, ?_⟩
  · simp only at hu ⊢
    by_cases huv : u = v
    · exact ⟨p, hp, by rw [huv, Function.update_self, hself]⟩
    · rw [hother u (by omega) huv, Function.update_of_ne huv]
      exact h.page u hu
  · simp only
    by_cases huv : u = v
    · rw [huv, Function.update_self]
      exact hperm
    · rw [Function.update_of_ne huv]
      exact h.perm u hu
  · simp only at ha ⊢
    rw [← h.byte a ha]
    unfold byteAt
    rw [if_pos (hval _ ha), if_pos (h.valid ha), hframe _ ha,
      h.space.byte_kept (h.good hg₀) hm.moves (by omega) (h.valid ha)]
  · have hus : users s'.mem root 0 (pgs g.sz) = users s.mem root 0 (pgs g.sz) :=
      users_congr_frame fun u _ hu => by
        rw [frameOf_valid (hval u hu), frameOf_valid (h.valid hu), hframe u hu]
    simp only
    rw [hus]
    exact h.moves.trans (hm.moves.frame _)

/-- `uvmclear`. -/
theorem uvmclear {Q : Unit → Phys → Prop} (hv : v < pgs g.sz)
    (hok : ∀ s', Building K root tf (g.guard v) s₀ s' → Q () s') :
    Det.Ends E (Vm.uvmclear root (pgsize * v)) s Q := by
  have hpg := h.space.pgs_le_num
  have hdiv := mul_div_pgsize v
  obtain ⟨p, hp, he⟩ := h.page v hv
  have hlt : p < 2 ^ 32 := by
    have := hp.high
    simp only [phystop] at this
    omega
  have hperm : g.perm v &&& (2 ^ 32 - 1 - pteU) < pgsize := lt_of_le_of_lt Nat.and_le_left (h.perm v hv)
  obtain ⟨t, hd⟩ := Option.ne_none_iff_exists'.1 (dir_of_valid (h.valid hv))
  have hrun : Vm.uvmclear root (pgsize * v) s = .ok ((), { s with
      mem := s.mem.st (t + 4 * (v % 1024)) (entry p (g.perm v &&& (2 ^ 32 - 1 - pteU))) }) := by
    unfold Vm.uvmclear
    rw [walk_load (by simp only [pgsize, maxva]; omega) fun _ => rfl, hdiv, hd, he]
    simp only
    rw [entry_guard hp]
    rfl
  refine .of_eq hrun (hok _ (h.reflag hg₀ hv hp he hperm ?_ ?_))
  · have hr := h.space.read v hv (h.valid hv)
    rw [h.testBit_of_pos hv (by decide) (by decide)] at hr
    rw [Nat.testBit_and, hr]
    rfl
  · exact (Grown.refl h.space.table).set (h.good hg₀).apart (by omega) (fun _ _ _ => rfl) hd
      (entry_lt hp.aligned hperm hlt) (.inr (entry_valid hp.aligned hperm))

end

end Building

end Xv6.Vm
