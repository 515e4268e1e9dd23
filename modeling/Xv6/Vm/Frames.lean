import Xv6.Vm.PageTable
import Xv6.Lib.Transfer
import Mathlib.Data.Finset.Card
import Mathlib.Order.Interval.Finset.Nat

/-!
# Frames in hand

The page allocator as an account of pages. `Good K s A` says that the free pages and those of `A`,
the pages that somebody holds, are different frames of the allocator. An operation that takes and
gives back pages is described by `s.Moves s' A A'`; it keeps `Good` whatever the others hold.

`Avail s n` says that the next `n` calls of `kalloc` succeed, and `Took s s' n` that `n` pages have been
taken since.
-/

namespace Xv6.Vm

open Transfer

/-! ## Words of page tables -/

theorem pgrounddown_add {p o : ℕ} (hp : p % pgsize = 0) (ho : o < pgsize) : pgrounddown (p + o) = p := by
  simp only [pgrounddown, pgsize] at *
  omega

theorem pte2pa_eq (w : ℕ) : pte2pa w = w / 4096 * 4096 := by
  rw [pte2pa, Nat.shiftRight_eq_div_pow, Nat.shiftLeft_eq]

theorem pa2pte_of_aligned {pa : ℕ} (h : pa % pgsize = 0) : pa2pte pa = pa := by
  rw [pa2pte, Nat.shiftRight_eq_div_pow, Nat.shiftLeft_eq]
  simp only [pgsize] at h
  omega

theorem px1_eq {va : ℕ} (h : va < 2 ^ 32) : px1 va = va / pgsize / 1024 := by
  rw [px1, Nat.shiftRight_eq_div_pow, show 0x3FF = 2 ^ 10 - 1 from rfl,
    Nat.and_two_pow_sub_one_eq_mod]
  simp only [pgsize]
  omega

theorem px0_eq (va : ℕ) : px0 va = va / pgsize % 1024 := by
  rw [px0, Nat.shiftRight_eq_div_pow, show 0x3FF = 2 ^ 10 - 1 from rfl,
    Nat.and_two_pow_sub_one_eq_mod]

theorem pteFlags_eq (w : ℕ) : pteFlags w = w % 4096 := by
  rw [pteFlags, show 0xFFF = 2 ^ 12 - 1 from rfl, Nat.and_two_pow_sub_one_eq_mod]

/-- The word that `mappages` stores. -/
def entry (pa perm : ℕ) : ℕ := pa2pte pa ||| perm ||| pteV

section Entry

variable {pa perm i : ℕ} (hpa : pa % pgsize = 0) (hperm : perm < pgsize)

include hpa hperm

theorem entry_div : entry pa perm / 4096 * 4096 = pa := by
  have h₁ : perm / 2 ^ 12 = 0 := Nat.div_eq_of_lt hperm
  have h₂ : pteV / 2 ^ 12 = 0 := rfl
  have h₃ : entry pa perm / 4096 = pa / 4096 := by
    rw [entry, pa2pte_of_aligned hpa, show (4096 : ℕ) = 2 ^ 12 from rfl, Nat.or_div_two_pow,
      Nat.or_div_two_pow, h₁, h₂, Nat.or_zero, Nat.or_zero]
  rw [h₃]
  simp only [pgsize] at hpa
  omega

theorem entry_mod : entry pa perm % 4096 = perm ||| pteV := by
  have h₂ : pteV % 2 ^ 12 = pteV := rfl
  rw [entry, pa2pte_of_aligned hpa, show (4096 : ℕ) = 2 ^ 12 from rfl, Nat.or_mod_two_pow,
    Nat.or_mod_two_pow, Nat.mod_eq_of_lt hperm, h₂, show pa % 2 ^ 12 = 0 from hpa, Nat.zero_or]

theorem entry_testBit (hi : i < 12) : (entry pa perm).testBit i = (perm ||| pteV).testBit i := by
  rw [← entry_mod hpa hperm, show (4096 : ℕ) = 2 ^ 12 from rfl, Nat.testBit_mod_two_pow,
    decide_eq_true hi, Bool.true_and]

theorem entry_valid : (entry pa perm).testBit vBit = true := by
  rw [entry_testBit hpa hperm (by decide), Nat.testBit_or]
  simp

theorem entry_lt (h : pa < 2 ^ 32) : entry pa perm < 2 ^ 32 := by
  rw [entry, pa2pte_of_aligned hpa]
  refine Nat.or_lt_two_pow (Nat.or_lt_two_pow h ?_) (by decide)
  simp only [pgsize] at hperm
  omega

theorem pte2pa_entry : pte2pa (entry pa perm) = pa := by
  rw [pte2pa_eq, entry_div hpa hperm]

end Entry

/-! ## The account -/

/-- A page that the allocator may hand out. -/
structure Layout.Frame (K : Layout) (p : ℕ) : Prop where
  aligned : p % pgsize = 0
  low : K.kend ≤ p
  high : p < phystop

/-- What `s` and `s'` differ in belongs to the free pages and to `A`, of which `A'` is left. -/
abbrev Phys.Moves (s s' : Phys) (A A' : Multiset ℕ) : Prop :=
  Transfer.Moves pgrounddown s.mem s'.mem s.freelist s'.freelist A A'

/-- The free pages and those of `A` are different frames. -/
structure Good (K : Layout) (s : Phys) (A : Multiset ℕ) : Prop where
  nodup : (↑s.freelist + A).Nodup
  frame : ∀ p, p ∈ s.freelist ∨ p ∈ A → K.Frame p

variable {K : Layout} {s s' s'' : Phys} {A A' B R : Multiset ℕ} {p : ℕ}

namespace Good

theorem moves (hg : Good K s (A + R)) (hm : s.Moves s' A A') : Good K s' (A' + R) := by
  refine ⟨hm.nodup hg.nodup, fun p hp => hg.frame p ?_⟩
  have h := (hm.frame R).mem_iff (p := p)
  exact h.1 (hp.imp_left fun h => h)

theorem cast (hg : Good K s A) (h : A = B) : Good K s B := h ▸ hg

theorem not_free (hg : Good K s A) (hp : p ∈ A) : p ∉ s.freelist := fun hx =>
  Multiset.disjoint_left.1 (Multiset.nodup_add.1 hg.nodup).2.2 hx hp

theorem held_nodup (hg : Good K s A) : A.Nodup := (Multiset.nodup_add.1 hg.nodup).2.1

/-- There are no more frames than memory has pages above the first. -/
theorem card_le (hg : Good K s A) : s.freelist.length + A.card ≤ 15997 := by
  have hmem : ∀ p ∈ (↑s.freelist + A).toFinset, K.Frame p := fun p hp =>
    hg.frame p ((Multiset.mem_add.1 (Multiset.mem_toFinset.1 hp)).imp_left Multiset.mem_coe.1)
  have hcard := Finset.card_le_card_of_injOn (t := Finset.Ico 1 15998) (· / pgsize)
    (s := (↑s.freelist + A).toFinset) (fun p hp => ?_) fun p hp q hq hpq => ?_
  · rw [Multiset.toFinset_card_of_nodup hg.nodup, Multiset.card_add, Multiset.coe_card,
      Nat.card_Ico] at hcard
    exact hcard
  · have hlow := (hmem p hp).low
    have hhigh := (hmem p hp).high
    have hend := K.kend_ge
    simp only [Finset.coe_Ico, Set.mem_Ico, pgsize, phystop] at *
    omega
  · have hp' := (hmem p hp).aligned
    have hq' := (hmem q hq).aligned
    simp only [pgsize] at *
    omega

/-- The state with other memory. -/
theorem congr (hg : Good K s A) (h : s'.freelist = s.freelist) : Good K s' A :=
  ⟨by rw [h]; exact hg.nodup, by rw [h]; exact hg.frame⟩

end Good

/-! ## `kalloc` and `kfree` -/

/-- The next `n` calls of `kalloc` succeed. -/
def Avail (s : Phys) (n : ℕ) : Prop :=
  n ≤ s.freelist.length ∧ ∀ i < n, s.deny.getD i false = false

theorem Avail.mono {m n : ℕ} (h : Avail s n) (hle : m ≤ n) : Avail s m :=
  ⟨hle.trans h.1, fun i hi => h.2 i (by omega)⟩

/-- `n` pages have been taken. -/
structure Took (s s' : Phys) (n : ℕ) : Prop where
  freelist : s'.freelist = s.freelist.drop n
  deny : s'.deny = s.deny.drop n

theorem Took.refl : Took s s 0 := ⟨rfl, rfl⟩

theorem Took.trans {m n : ℕ} (h : Took s s' m) (h' : Took s' s'' n) : Took s s'' (m + n) :=
  ⟨by rw [h'.freelist, h.freelist, List.drop_drop], by rw [h'.deny, h.deny, List.drop_drop]⟩

/-- Calls one after another. -/
theorem Took.avail_add {m n : ℕ} (h : Took s s' m) : Avail s (m + n) ↔ Avail s m ∧ Avail s' n := by
  have hget : ∀ i, s'.deny.getD i false = s.deny.getD (m + i) false := fun i => by
    rw [h.deny, List.getD_eq_getElem?_getD, List.getD_eq_getElem?_getD, List.getElem?_drop]
  simp only [Avail, h.freelist, List.length_drop, hget]
  constructor
  · rintro ⟨hlen, hd⟩
    exact ⟨⟨by omega, fun i hi => hd i (by omega)⟩, by omega, fun i hi => hd (m + i) (by omega)⟩
  · rintro ⟨⟨h₁, h₂⟩, h₃, h₄⟩
    refine ⟨by omega, fun i hi => ?_⟩
    by_cases him : i < m
    · exact h₂ i him
    · have := h₄ (i - m) (by omega)
      rwa [show m + (i - m) = i by omega] at this

/-- Nothing but the failures to come has changed. -/
structure Same (s s' : Phys) : Prop where
  mem : s'.mem = s.mem
  freelist : s'.freelist = s.freelist

theorem Same.refl : Same s s := ⟨rfl, rfl⟩

theorem Same.moves (h : Same s s') : s.Moves s' A A := by
  rw [Phys.Moves, h.mem, h.freelist]
  exact .refl

/-- `kalloc` takes the first free page, or fails. -/
theorem kalloc_ends {E : Halt → Prop} {Q : Option ℕ → Phys → Prop}
    (hnone : ∀ s', ¬ Avail s 1 → Same s s' → Q none s')
    (hsome : ∀ p s', Avail s 1 → Took s s' 1 → s'.mem = s.mem → s.freelist = p :: s'.freelist →
      Q (some p) s') : Det.Ends E kalloc s Q := by
  have h0 : ∀ b : Bool, s.deny.headD false = b → s.deny.getD 0 false = b := fun b hb => by
    cases hd : s.deny <;> simp_all
  unfold Det.Ends kalloc
  cases hd : s.deny.headD false with
  | true =>
    refine hnone _ (fun ha => ?_) ⟨rfl, rfl⟩
    have := ha.2 0 (by omega)
    rw [h0 _ hd] at this
    cases this
  | false =>
    cases hf : s.freelist with
    | nil =>
      refine hnone _ (fun ha => ?_) ⟨rfl, hf.symm ▸ rfl⟩
      have := ha.1
      rw [hf] at this
      simp at this
    | cons r l =>
      refine hsome r _ ⟨by rw [hf]; simp, fun i hi => ?_⟩ ⟨?_, ?_⟩ rfl hf
      · obtain rfl : i = 0 := by omega
        exact h0 _ hd
      · rw [hf]
        rfl
      · exact List.drop_one.symm

theorem moves_of_kalloc (hf : s.freelist = p :: s'.freelist) (hm : s'.mem = s.mem) :
    s.Moves s' 0 {p} := by
  refine ⟨?_, fun a _ _ => by rw [hm]⟩
  rw [hf, add_zero, ← Multiset.cons_coe, ← Multiset.singleton_add, add_comm]

/-- A page may be written by who has it in hand. -/
theorem moves_of_write {m : ByteMem} (h : ∀ a, pgrounddown a ∉ A → m a = s.mem a) :
    s.Moves { s with mem := m } A A := ⟨rfl, fun a _ ha => h a ha⟩

/-- `kfree` of a frame. -/
theorem kfree_ok (h : K.Frame p) : kfree K p s =
    .ok ((), { s with mem := s.mem.st p (s.freelist.headD 0), freelist := p :: s.freelist }) := by
  have h₁ := h.aligned
  have h₂ := h.low
  have h₃ := h.high
  unfold kfree
  rw [if_neg (by omega)]

theorem moves_of_kfree (h : K.Frame p) :
    s.Moves { s with mem := s.mem.st p (s.freelist.headD 0), freelist := p :: s.freelist } {p} 0 := by
  refine ⟨?_, fun a _ ha => ByteMem.st_of_not_mem ?_⟩
  · simp only
    rw [add_zero, ← Multiset.cons_coe, ← Multiset.singleton_add, add_comm]
  · rw [Multiset.mem_singleton] at ha
    have := h.aligned
    simp only [pgrounddown, pgsize] at ha this
    omega

end Xv6.Vm
