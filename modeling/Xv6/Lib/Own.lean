import Mathlib.Logic.Function.Basic

/-!
# Exact ownership

Places hold resources, each place at most one (`holds : ι → Option α`). Ownership is exact when
the resources in use are those that some place holds, and no resource is held twice. It is kept by
putting a resource that was not in use into an empty place, and by taking one out of its place and
out of use. The statements do not fix what a place is: in the middle of an operation a caller
instantiates `holds` with places that are still written on some medium but already given up.
-/

namespace Own

variable {ι α : Type}

/-- The resources in use are exactly those held, each in one place. -/
structure Exact (holds : ι → Option α) (used : α → Prop) : Prop where
  used_of_holds : ∀ {x a}, holds x = some a → used a
  holder : ∀ {a}, used a → ∃ x, holds x = some a
  inj : ∀ {x y a}, holds x = some a → holds y = some a → x = y

namespace Exact

variable {holds holds' : ι → Option α} {used used' : α → Prop} {x y : ι} {a b : α}

/-- A resource that is not in use is nowhere. -/
theorem fresh (h : Exact holds used) (ha : ¬ used a) : holds x ≠ some a :=
  fun hx => ha (h.used_of_holds hx)

theorem congr (h : Exact holds used) (hh : ∀ x, holds' x = holds x) (hu : ∀ a, used' a ↔ used a) :
    Exact holds' used' := by
  obtain rfl : holds' = holds := funext hh
  obtain rfl : used' = used := funext fun a => propext (hu a)
  exact h

/-- A resource that was not in use goes to an empty place. -/
theorem put (h : Exact holds used) (hx : holds x = none) (ha : ¬ used a)
    (hself : holds' x = some a) (hne : ∀ y, y ≠ x → holds' y = holds y)
    (hu : ∀ b, used' b ↔ b = a ∨ used b) : Exact holds' used' := by
  refine ⟨fun {y b} hy => (hu b).2 ?_, fun {b} hb => ?_, fun {y z b} hy hz => ?_⟩
  · by_cases hyx : y = x
    · rw [hyx, hself] at hy
      exact .inl (Option.some.inj hy).symm
    · rw [hne y hyx] at hy
      exact .inr (h.used_of_holds hy)
  · obtain rfl | hb := (hu b).1 hb
    · exact ⟨x, hself⟩
    · obtain ⟨y, hy⟩ := h.holder hb
      have hyx : y ≠ x := by
        rintro rfl
        rw [hx] at hy
        cases hy
      exact ⟨y, (hne y hyx).trans hy⟩
  · by_cases hyx : y = x <;> by_cases hzx : z = x
    · rw [hyx, hzx]
    · rw [hyx, hself] at hy
      rw [hne z hzx, ← Option.some.inj hy] at hz
      exact absurd hz (h.fresh ha)
    · rw [hzx, hself] at hz
      rw [hne y hyx, ← Option.some.inj hz] at hy
      exact absurd hy (h.fresh ha)
    · rw [hne y hyx] at hy
      rw [hne z hzx] at hz
      exact h.inj hy hz

/-- A resource leaves its place and is no longer in use. -/
theorem take (h : Exact holds used) (hx : holds x = some a)
    (hself : holds' x = none) (hne : ∀ y, y ≠ x → holds' y = holds y)
    (hu : ∀ b, used' b ↔ b ≠ a ∧ used b) : Exact holds' used' := by
  have hold : ∀ {y b}, holds' y = some b → y ≠ x ∧ holds y = some b := fun {y b} hy => by
    have hyx : y ≠ x := by
      rintro rfl
      rw [hself] at hy
      cases hy
    exact ⟨hyx, (hne y hyx).symm.trans hy⟩
  refine ⟨fun {y b} hy => (hu b).2 ?_, fun {b} hb => ?_, fun {y z b} hy hz => ?_⟩
  · obtain ⟨hyx, hy⟩ := hold hy
    refine ⟨?_, h.used_of_holds hy⟩
    rintro rfl
    exact hyx (h.inj hy hx)
  · obtain ⟨hba, hb⟩ := (hu b).1 hb
    obtain ⟨y, hy⟩ := h.holder hb
    have hyx : y ≠ x := by
      rintro rfl
      exact hba (Option.some.inj (hy.symm.trans hx))
    exact ⟨y, (hne y hyx).trans hy⟩
  · exact h.inj (hold hy).2 (hold hz).2

end Exact

end Own
