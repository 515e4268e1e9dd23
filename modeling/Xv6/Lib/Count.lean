import Mathlib.Data.Fintype.Card
import Mathlib.Data.Finset.Card
import Mathlib.Data.Fintype.Prod

/-!
# Counting the elements with a property

`num P` is the number of elements of a finite type with property `P`. When a table is updated in
one place, two properties that agree everywhere else have counts that differ by what happens in
that place (`num_change`).
-/

namespace Count

variable {α : Type} [Fintype α] {P Q : α → Prop} [DecidablePred P] [DecidablePred Q]

/-- How many elements have a property. -/
def num (P : α → Prop) [DecidablePred P] : ℕ := (Finset.univ.filter P).card

theorem num_congr (h : ∀ x, P x ↔ Q x) : num P = num Q := by
  unfold num
  congr 1
  exact Finset.filter_congr fun x _ => h x

theorem num_pos {x : α} (h : P x) : 0 < num P :=
  Finset.card_pos.2 ⟨x, Finset.mem_filter.2 ⟨Finset.mem_univ x, h⟩⟩

theorem exists_of_num_pos (h : 0 < num P) : ∃ x, P x := by
  obtain ⟨x, hx⟩ := Finset.card_pos.1 h
  exact ⟨x, (Finset.mem_filter.1 hx).2⟩

theorem num_eq_zero (h : ∀ x, ¬ P x) : num P = 0 := by
  refine Nat.eq_zero_of_not_pos fun hpos => ?_
  obtain ⟨x, hx⟩ := exists_of_num_pos hpos
  exact h x hx

variable [DecidableEq α]

/-- The count without one element. -/
theorem num_split (P : α → Prop) [DecidablePred P] (x : α) :
    num P = num (fun y => P y ∧ y ≠ x) + if P x then 1 else 0 := by
  unfold num
  have hfilter : (Finset.univ.filter fun y => P y ∧ y ≠ x) = (Finset.univ.filter P).erase x := by
    ext y
    simp [and_comm]
  rw [hfilter]
  by_cases hx : P x
  · rw [if_pos hx, Finset.card_erase_add_one (Finset.mem_filter.2 ⟨Finset.mem_univ x, hx⟩)]
  · rw [if_neg hx, Finset.erase_eq_of_notMem fun h => hx (Finset.mem_filter.1 h).2, Nat.add_zero]

/-- The counts of properties that agree outside of `x`. -/
theorem num_change (x : α) (h : ∀ y, y ≠ x → (P y ↔ Q y)) :
    num P + (if Q x then 1 else 0) = num Q + if P x then 1 else 0 := by
  have hrest : num (fun y => P y ∧ y ≠ x) = num fun y => Q y ∧ y ≠ x :=
    num_congr fun y => and_congr_left (h y)
  rw [num_split P x, num_split Q x, hrest]
  omega

end Count
