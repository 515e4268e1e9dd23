import Mathlib.Data.Nat.Notation
import Mathlib.Tactic.Common

/-!
# Deterministic programs that may stop

A program of `Det ε σ α` runs from a state of `σ` to a value and a new state, or stops with an
`ε`. There are two notions for it. `Ends E p s Q`: from `s` the program returns, with a value and
a state of `Q`, or stops with one of `E`; with no stop allowed this is total correctness, and it has
the usual rules. `Sim R V p q`: from states that `R` relates two programs stop in the same way, or
both return, with values related by `V` and states that `R` relates again; this is how a program
over one kind of state is reduced to one over another.
-/

/-- Programs with a state of `σ` that may stop with an `ε`. -/
abbrev Det (ε σ : Type) := StateT σ (Except ε)

namespace Det

variable {ε σ τ α β γ δ : Type}

@[simp] theorem pure_apply (a : α) (s : σ) : (pure a : Det ε σ α) s = .ok (a, s) := rfl

@[simp] theorem throw_apply (e : ε) (s : σ) : (throw e : Det ε σ α) s = .error e := rfl

@[simp] theorem get_apply (s : σ) : (get : Det ε σ σ) s = .ok (s, s) := rfl

@[simp] theorem set_apply (s s' : σ) : (set s' : Det ε σ PUnit) s = .ok (⟨⟩, s') := rfl

theorem bind_apply (p : Det ε σ α) (f : α → Det ε σ β) (s : σ) :
    (p >>= f) s = match p s with
      | .ok (a, s') => f a s'
      | .error e => .error e := by
  show StateT.bind p f s = _
  unfold StateT.bind
  cases p s <;> rfl

theorem bind_ok {p : Det ε σ α} {f : α → Det ε σ β} {s s' : σ} {a : α} (h : p s = .ok (a, s')) :
    (p >>= f) s = f a s' := by
  rw [bind_apply, h]

/-! ## Correctness -/

/-- From `s` the program returns with a value and a state of `Q`, or stops with one of `E`. -/
def Ends (E : ε → Prop) (p : Det ε σ α) (s : σ) (Q : α → σ → Prop) : Prop :=
  match p s with
  | .ok (a, s') => Q a s'
  | .error e => E e

namespace Ends

variable {E : ε → Prop} {p : Det ε σ α} {s : σ} {Q Q' : α → σ → Prop}

theorem pure {a : α} (h : Q a s) : Ends E (pure a) s Q := h

theorem throw {e : ε} (h : E e) : Ends E (throw e : Det ε σ α) s Q := h

theorem bind {f : α → Det ε σ β} {R : β → σ → Prop} (h : Ends E p s fun a s' => Ends E (f a) s' R) :
    Ends E (p >>= f) s R := by
  unfold Ends at h ⊢
  rw [bind_apply]
  cases hp : p s with
  | ok a =>
    rw [hp] at h
    exact h
  | error e =>
    rw [hp] at h
    exact h

theorem mono (h : Ends E p s Q) (hQ : ∀ a s', Q a s' → Q' a s') : Ends E p s Q' := by
  unfold Ends at h ⊢
  cases hp : p s with
  | ok a =>
    rw [hp] at h
    exact hQ _ _ h
  | error e =>
    rw [hp] at h
    exact h

/-- A known result. -/
theorem of_eq {a : α} {s' : σ} (h : p s = .ok (a, s')) (hQ : Q a s') : Ends E p s Q := by
  unfold Ends
  rw [h]
  exact hQ

/-- A known stop. -/
theorem of_error {e : ε} (h : p s = .error e) (hE : E e) : Ends E p s Q := by
  unfold Ends
  rw [h]
  exact hE

/-- What is known of a result. -/
theorem ok {a : α} {s' : σ} (h : Ends E p s Q) (hp : p s = .ok (a, s')) : Q a s' := by
  unfold Ends at h
  rwa [hp] at h

/-- With no stop allowed the program returns. -/
theorem returns (h : Ends (fun _ => False) p s Q) : ∃ a s', p s = .ok (a, s') ∧ Q a s' := by
  unfold Ends at h
  cases hp : p s with
  | ok a =>
    rw [hp] at h
    exact ⟨a.1, a.2, rfl, h⟩
  | error e =>
    rw [hp] at h
    exact h.elim

end Ends

/-! ## Simulation -/

/-- The two ways to end agree: the same stop, or related values and states. -/
def Agree (R : σ → τ → Prop) (V : α → β → Prop) : Except ε (α × σ) → Except ε (β × τ) → Prop
  | .ok (a, s), .ok (b, t) => R s t ∧ V a b
  | .error e, .error e' => e = e'
  | _, _ => False

/-- From related states two programs end alike. -/
def Sim (R : σ → τ → Prop) (V : α → β → Prop) (p : Det ε σ α) (q : Det ε τ β) : Prop :=
  ∀ s t, R s t → Agree R V (p s) (q t)

namespace Sim

variable {R : σ → τ → Prop} {V : α → β → Prop} {W : γ → δ → Prop} {p : Det ε σ α} {q : Det ε τ β}

theorem pure {a : α} {b : β} (h : V a b) : Sim R V (pure a : Det ε σ α) (pure b : Det ε τ β) :=
  fun _ _ hR => ⟨hR, h⟩

theorem throw (e : ε) : Sim R V (throw e : Det ε σ α) (throw e : Det ε τ β) := fun _ _ _ => rfl

theorem bind {f : α → Det ε σ γ} {g : β → Det ε τ δ} (h : Sim R V p q)
    (hf : ∀ a b, V a b → Sim R W (f a) (g b)) : Sim R W (p >>= f) (q >>= g) := by
  intro s t hR
  have hpq := h s t hR
  rw [bind_apply, bind_apply]
  cases hp : p s with
  | error e =>
    cases hq : q t with
    | error e' =>
      rw [hp, hq] at hpq
      exact hpq
    | ok b => simp [hp, hq, Agree] at hpq
  | ok a =>
    cases hq : q t with
    | error e' => simp [hp, hq, Agree] at hpq
    | ok b =>
      rw [hp, hq] at hpq
      exact hf a.1 b.1 hpq.2 a.2 b.2 hpq.1

/-- Two tests with the same result. -/
theorem ite {c d : Prop} [Decidable c] [Decidable d] {p' : Det ε σ α} {q' : Det ε τ β}
    (hcd : c ↔ d) (h : Sim R V p q) (h' : Sim R V p' q') :
    Sim R V (if c then p else p') (if d then q else q') := by
  by_cases hc : c
  · rw [if_pos hc, if_pos (hcd.1 hc)]
    exact h
  · rw [if_neg hc, if_neg fun hd => hc (hcd.2 hd)]
    exact h'

end Sim

end Det
