import Mathlib.Algebra.BigOperators.Group.Finset.Basic
import Mathlib.Algebra.Order.Group.Multiset
import Mathlib.Data.Multiset.UnionInter
import Mathlib.Tactic.Abel

/-!
# Pages that change hands

A memory is divided into pages; some pages are free, the others have holders. An operation holds
some pages, may take free ones and may give pages back. `Moves page m m' F F' A A'` is the account of
such an operation: with the pages `A` in hand and `F` free it ended with `A'` in hand and `F'` free,
no page having been lost or made, and it wrote to no page but these. Accounts compose (`trans`), hold
beside pages that others have (`frame`), and leave the memory of those alone (`keeps`).
-/

namespace Transfer

open scoped BigOperators

section Sums

variable {ι M P : Type} [DecidableEq ι]

/-- A sum when one term changes. -/
theorem sum_change [AddCommMonoid M] {s : Finset ι} {f g : ι → M} {i : ι} (hi : i ∈ s)
    (h : ∀ j ∈ s, j ≠ i → g j = f j) : ∑ j ∈ s, g j + f i = ∑ j ∈ s, f j + g i := by
  rw [← Finset.add_sum_erase s f hi, ← Finset.add_sum_erase s g hi,
    Finset.sum_congr rfl fun j hj => h j (Finset.mem_of_mem_erase hj) (Finset.ne_of_mem_erase hj)]
  abel

/-- The terms of a sum without repetitions have nothing in common. -/
theorem disjoint_of_nodup_sum {s : Finset ι} {f : ι → Multiset P} (h : (∑ i ∈ s, f i).Nodup)
    {i j : ι} (hi : i ∈ s) (hj : j ∈ s) (hne : i ≠ j) : Disjoint (f i) (f j) := by
  rw [← Finset.add_sum_erase s f hi,
    ← Finset.add_sum_erase (s.erase i) f (Finset.mem_erase.2 ⟨hne.symm, hj⟩), ← add_assoc] at h
  exact (Multiset.nodup_add.1 (Multiset.nodup_add.1 h).1).2.2

end Sums

variable {α β P : Type}

/-- The account of an operation. -/
structure Moves (page : α → P) (m m' : α → β) (F F' A A' : Multiset P) : Prop where
  total : F' + A' = F + A
  same : ∀ a, page a ∉ F → page a ∉ A → m' a = m a

namespace Moves

variable {page : α → P} {m m' m'' : α → β} {F F' F'' A A' A'' R : Multiset P} {a : α}

theorem refl : Moves page m m F F A A := ⟨rfl, fun _ _ _ => rfl⟩

theorem mem_iff (h : Moves page m m' F F' A A') {p : P} : p ∈ F' ∨ p ∈ A' ↔ p ∈ F ∨ p ∈ A := by
  rw [← Multiset.mem_add, h.total, Multiset.mem_add]

theorem trans (h : Moves page m m' F F' A A') (h' : Moves page m' m'' F' F'' A' A'') :
    Moves page m m'' F F'' A A'' := by
  refine ⟨h'.total.trans h.total, fun a hF hA => ?_⟩
  have hno : ¬ (page a ∈ F' ∨ page a ∈ A') := fun hx => (h.mem_iff.1 hx).elim hF hA
  rw [not_or] at hno
  exact (h'.same a hno.1 hno.2).trans (h.same a hF hA)

/-- More pages may be in hand. -/
theorem frame (h : Moves page m m' F F' A A') (R : Multiset P) :
    Moves page m m' F F' (A + R) (A' + R) := by
  refine ⟨?_, fun a hF hA => h.same a hF fun hx => hA (Multiset.mem_add.2 (.inl hx))⟩
  rw [← add_assoc, h.total, add_assoc]

theorem cast (h : Moves page m m' F F' A A') {B B' : Multiset P} (hA : A = B) (hA' : A' = B') :
    Moves page m m' F F' B B' := hA ▸ hA' ▸ h

/-- Nothing is held twice. -/
theorem nodup (h : Moves page m m' F F' A A') (hn : (F + (A + R)).Nodup) :
    (F' + (A' + R)).Nodup := by
  rw [← add_assoc] at hn ⊢
  rwa [h.total]

/-- The pages that others hold are as before. -/
theorem keeps (h : Moves page m m' F F' A A') (hn : (F + (A + R)).Nodup) (ha : page a ∈ R) :
    m' a = m a := by
  rw [← add_assoc] at hn
  have hd : page a ∉ F + A := fun hx =>
    Multiset.disjoint_left.1 (Multiset.nodup_add.1 hn).2.2 hx ha
  rw [Multiset.mem_add, not_or] at hd
  exact h.same a hd.1 hd.2

end Moves

end Transfer
