import Xv6.Lib.Free

/-!
# Programs that do not sleep

`wp` allows that a thread sleeps. A program that is `Awake` in a state does not, and `twp` is `wp` for
such programs: every outcome is a value and a state, or a panic that is allowed (`twp.outcome`).

A program makes calls of a kind only (`Free.Only`) when its text says so. That is enough for it not to
sleep, or to keep a property of the state, when no call of that kind does otherwise.
-/

namespace Eff

open Conc (Outcome)

variable {E : Type → Type 1} {σ α β : Type} {H : Handler E σ} {s : σ} {p q : Free E α}

/-- A program does not sleep when it is run from `s`. -/
def Awake (H : Handler E σ) (p : Free E α) (s : σ) : Prop := ¬ Exec H p s .block

namespace Awake

theorem pure (a : α) : Awake H (Pure.pure a) s := by
  intro h
  cases h

theorem call {e : E α} (h : ¬ H e s .block) : Awake H (Free.call e) s := by
  intro hex
  cases hex with
  | ok he hk => cases hk
  | block he => exact h he

/-- The second part is run from the states in which the first one ends. -/
theorem bind {k : α → Free E β} (h : Awake H p s)
    (hk : ∀ a s', Exec H p s (.ok a s') → Awake H (k a) s') : Awake H (p >>= k) s := by
  intro hex
  obtain ⟨a, s', h₁, h₂⟩ | ⟨-, h₁⟩ | ⟨msg, ho, -⟩ := exec_bind hex
  · exact hk a s' h₁ h₂
  · exact h h₁
  · cases ho

theorem ite {c : Prop} [Decidable c] (hp : Awake H p s) (hq : Awake H q s) :
    Awake H (if c then p else q) s := by
  split
  · exact hp
  · exact hq

end Awake

/-! ## Total correctness -/

/-- Every outcome of `p` from `s` is a value and a state with `Q`, or a panic with `err`. -/
structure twp (H : Handler E σ) (err : String → Prop) (p : Free E α) (Q : α → σ → Prop) (s : σ) : Prop where
  good : wp H err p Q s
  awake : Awake H p s

namespace twp

variable {err : String → Prop} {Q : α → σ → Prop}

theorem pure {a : α} (h : Q a s) : twp H err (Pure.pure a) Q s := ⟨wp_pure h, .pure a⟩

theorem bind {k : α → Free E β} {R : β → σ → Prop} (h : twp H err p (fun a s' => twp H err (k a) R s') s) :
    twp H err (p >>= k) R s :=
  ⟨wp_bind (wp_mono h.good fun _ _ h' => h'.good), .bind h.awake fun _ _ hex => (h.good _ hex).awake⟩

theorem outcome {o : Outcome σ α} (h : twp H err p Q s) (hex : Exec H p s o) :
    (∃ a s', o = .ok a s' ∧ Q a s') ∨ ∃ msg, o = .panic msg ∧ err msg := by
  have hgood := h.good o hex
  cases o with
  | ok a s' => exact .inl ⟨a, s', rfl, hgood⟩
  | block => exact absurd hex h.awake
  | panic msg => exact .inr ⟨msg, rfl, hgood⟩

end twp

/-- A program that does not sleep and is safe returns. -/
theorem wp.returns {Q : α → σ → Prop} {o : Outcome σ α} (h : wp H (fun _ => False) p Q s)
    (ha : Awake H p s) (hex : Exec H p s o) : ∃ a s', o = .ok a s' ∧ Q a s' := by
  have hno : ¬ ∃ msg, o = .panic msg ∧ False := fun ⟨_, h⟩ => h.2
  exact (twp.outcome ⟨h, ha⟩ hex).resolve_right hno

/-! ## Calls of a kind -/

/-- Every call that a program may make is one of `Φ`. -/
def Free.Only (Φ : ∀ ⦃β : Type⦄, E β → Prop) : Free E α → Prop
  | .ret _ => True
  | .op e k => Φ e ∧ ∀ b, (k b).Only Φ

namespace Free.Only

variable {Φ : ∀ ⦃β : Type⦄, E β → Prop}

theorem pure (a : α) : (Pure.pure a : Free E α).Only Φ := trivial

theorem call {e : E α} (h : Φ e) : (Free.call e).Only Φ := ⟨h, fun _ => trivial⟩

theorem bind {k : α → Free E β} (h : p.Only Φ) (hk : ∀ a, (k a).Only Φ) : (p >>= k).Only Φ := by
  induction p with
  | ret a => exact hk a
  | op e g ih => exact ⟨h.1, fun b => ih b (h.2 b)⟩

theorem ite {c : Prop} [Decidable c] (hp : p.Only Φ) (hq : q.Only Φ) : (if c then p else q).Only Φ := by
  split
  · exact hp
  · exact hq

theorem awake (hΦ : ∀ ⦃β : Type⦄ (e : E β) s, Φ e → ¬ H e s .block) (h : p.Only Φ) : Awake H p s := by
  intro hex
  induction p generalizing s with
  | ret a => cases hex
  | op e k ih =>
    cases hex with
    | ok he hk => exact ih _ (h.2 _) hk
    | block he => exact hΦ e s h.1 he

theorem stable {I : σ → Prop} (hΦ : ∀ ⦃β : Type⦄ (e : E β) s b s', Φ e → I s → H e s (.ok b s') → I s')
    (h : p.Only Φ) : Stable H I p := by
  induction p with
  | ret a => exact .pure a
  | op e k ih =>
    refine fun s hs => wp_op fun o he => ?_
    cases o with
    | ok b s' => exact ih b (h.2 b) s' (hΦ e s b s' h.1 hs he)
    | block => trivial
    | panic msg => trivial

end Free.Only

/-- A program over a part of the state sleeps when it does so on the part. -/
theorem Awake.translate {E' : Type → Type 1} {τ : Type} {f : ∀ ⦃β : Type⦄, E β → E' β} {L : Lens τ σ}
    {H' : Handler E' τ} {t : τ}
    (hH : ∀ ⦃β : Type⦄ (e : E β) t o, H' (f e) t o → ∃ o', H e (L.get t) o' ∧ o = within (L.set t) o')
    (h : Awake H p (L.get t)) : Awake H' (p.translate f) t := by
  intro hex
  obtain ⟨o', h', ho⟩ := exec_translate hH hex
  cases o' with
  | ok a s => cases ho
  | block => exact h h'
  | panic msg => cases ho

end Eff
