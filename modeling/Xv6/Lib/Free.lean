import Xv6.Lib.Prog

/-!
# Programs over an interface

`Free E α` is a program that makes calls of an interface `E` and returns a value of `α`: an `E β`
is a call with a reply in `β`. What a call does is said by a handler, a relation between the call,
the state before it and its outcome, so that a call may have several outcomes. The same program
has a meaning under every handler; `Exec H p s o` is "from state `s`, `p` may end with outcome
`o` under `H`".

`wp H err p Q s` says that every outcome of `p` from `s` is good: a value and a state with `Q`, a
panic with `err`, or a thread that sleeps. It has the usual rules, one for each way to build a
program.
-/

namespace Eff

open Conc (Outcome)

/-- Programs that make calls of `E`. -/
inductive Free (E : Type → Type 1) (α : Type) : Type 1
  | ret (a : α)
  | op {β : Type} (e : E β) (k : β → Free E α)

namespace Free

variable {E : Type → Type 1} {α β γ : Type}

/-- Run `p`, then `k` on its value. -/
def bind : Free E α → (α → Free E β) → Free E β
  | .ret a, k => k a
  | .op e g, k => .op e fun b => (g b).bind k

instance : Monad (Free E) where
  pure := .ret
  bind := bind

/-- A single call. -/
def call (e : E α) : Free E α := .op e .ret

@[simp] theorem pure_eq (a : α) : (pure a : Free E α) = .ret a := rfl

@[simp] theorem ret_bind (a : α) (k : α → Free E β) : (Free.ret a >>= k) = k a := rfl

@[simp] theorem op_bind (e : E γ) (g : γ → Free E α) (k : α → Free E β) :
    (Free.op e g >>= k) = .op e fun b => g b >>= k := rfl

theorem bind_assoc (p : Free E α) (k : α → Free E β) (l : β → Free E γ) :
    ((p >>= k) >>= l) = p >>= fun a => k a >>= l := by
  induction p with
  | ret a => rfl
  | op e g ih => exact congrArg (Free.op e) (funext ih)

end Free

section Semantics

variable {E : Type → Type 1} {σ α β : Type}

/-- What the calls do. -/
abbrev Handler (E : Type → Type 1) (σ : Type) := ∀ ⦃β : Type⦄, E β → σ → Outcome σ β → Prop

/-- The outcomes of a program. -/
inductive Exec (H : Handler E σ) {α : Type} : Free E α → σ → Outcome σ α → Prop
  | ret (a : α) (s : σ) : Exec H (.ret a) s (.ok a s)
  | ok {β : Type} {e : E β} {k : β → Free E α} {s s' : σ} {b : β} {o : Outcome σ α}
      (h : H e s (.ok b s')) (hk : Exec H (k b) s' o) : Exec H (.op e k) s o
  | block {β : Type} {e : E β} {k : β → Free E α} {s : σ} (h : H e s .block) :
      Exec H (.op e k) s .block
  | panic {β : Type} {e : E β} {k : β → Free E α} {s : σ} {msg : String}
      (h : H e s (.panic msg)) : Exec H (.op e k) s (.panic msg)

/-- The run of a program when every call has one outcome. -/
def run (f : ∀ ⦃β : Type⦄, E β → σ → Outcome σ β) : Free E α → σ → Outcome σ α
  | .ret a, s => .ok a s
  | .op e k, s => (f e s).andThen fun b s' => run f (k b) s'

theorem exec_run {H : Handler E σ} {f : ∀ ⦃β : Type⦄, E β → σ → Outcome σ β}
    (hf : ∀ ⦃β : Type⦄ (e : E β) (s : σ), H e s (f e s)) (p : Free E α) (s : σ) :
    Exec H p s (run f p s) := by
  induction p generalizing s with
  | ret a => exact .ret a s
  | op e k ih =>
    have h := hf e s
    unfold run
    cases hfe : f e s with
    | ok b s' =>
      rw [hfe] at h
      exact .ok h (ih b s')
    | block =>
      rw [hfe] at h
      exact .block h
    | panic msg =>
      rw [hfe] at h
      exact .panic h

/-- An outcome is good: a value and a state with `Q`, a panic with `err`, or no end. -/
def Good (err : String → Prop) (Q : α → σ → Prop) : Outcome σ α → Prop
  | .ok a s => Q a s
  | .block => True
  | .panic msg => err msg

/-- Every outcome of `p` from `s` is good. -/
def wp (H : Handler E σ) (err : String → Prop) (p : Free E α) (Q : α → σ → Prop) (s : σ) : Prop :=
  ∀ o, Exec H p s o → Good err Q o

variable {H : Handler E σ} {err : String → Prop} {Q Q' : α → σ → Prop} {s : σ}

theorem wp_ret {a : α} (h : Q a s) : wp H err (.ret a) Q s := by
  rintro o ⟨⟩
  exact h

theorem wp_pure {a : α} (h : Q a s) : wp H err (pure a) Q s := wp_ret h

theorem wp_op {e : E β} {k : β → Free E α}
    (h : ∀ o, H e s o → Good err (fun b s' => wp H err (k b) Q s') o) :
    wp H err (.op e k) Q s := by
  intro o ho
  cases ho with
  | ok he hk => exact h _ he _ hk
  | block he => trivial
  | panic he => exact h _ he

theorem wp_call {e : E α} (h : ∀ o, H e s o → Good err Q o) : wp H err (Free.call e) Q s := by
  refine wp_op fun o ho => ?_
  have := h o ho
  cases o with
  | ok b s' => exact wp_ret this
  | block => trivial
  | panic msg => exact this

theorem wp_mono {p : Free E α} (h : wp H err p Q s) (hQ : ∀ a s', Q a s' → Q' a s') :
    wp H err p Q' s := by
  intro o ho
  have := h o ho
  cases o with
  | ok a s' => exact hQ a s' this
  | block => trivial
  | panic msg => exact this

/-- The value and the state are those of an execution. -/
theorem wp_of_exec {p : Free E α} (h : wp H err p (fun a s' => Exec H p s (.ok a s') → Q a s') s) :
    wp H err p Q s := by
  intro o ho
  have := h o ho
  cases o with
  | ok a s' => exact this ho
  | block => trivial
  | panic msg => exact this

/-- The outcomes of a sequence come from those of its first part. -/
theorem exec_bind {p : Free E α} {k : α → Free E β} {o : Outcome σ β}
    (h : Exec H (p >>= k) s o) :
    (∃ a s', Exec H p s (.ok a s') ∧ Exec H (k a) s' o) ∨ (o = .block ∧ Exec H p s .block) ∨
      ∃ msg, o = .panic msg ∧ Exec H p s (.panic msg) := by
  induction p generalizing s with
  | ret a => exact .inl ⟨a, s, .ret a s, h⟩
  | op e g ih =>
    cases h with
    | ok he hk =>
      obtain ⟨a, s', h₁, h₂⟩ | ⟨ho, h₁⟩ | ⟨msg, ho, h₁⟩ := ih _ hk
      · exact .inl ⟨a, s', .ok he h₁, h₂⟩
      · exact .inr (.inl ⟨ho, .ok he h₁⟩)
      · exact .inr (.inr ⟨msg, ho, .ok he h₁⟩)
    | block he => exact .inr (.inl ⟨rfl, .block he⟩)
    | panic he => exact .inr (.inr ⟨_, rfl, .panic he⟩)

/-- The outcomes of the second part of a sequence are outcomes of the whole. -/
theorem Exec.seq {p : Free E α} {k : α → Free E β} {a : α} {s' : σ} {o : Outcome σ β}
    (hp : Exec H p s (.ok a s')) (hk : Exec H (k a) s' o) : Exec H (p >>= k) s o := by
  induction p generalizing s with
  | ret b =>
    cases hp
    exact hk
  | op e g ih =>
    cases hp with
    | ok he hg => exact .ok he (ih _ hg)

theorem wp_bind {p : Free E α} {k : α → Free E β} {R : β → σ → Prop}
    (h : wp H err p (fun a s' => wp H err (k a) R s') s) : wp H err (p >>= k) R s := by
  intro o ho
  obtain ⟨a, s', h₁, h₂⟩ | ⟨rfl, -⟩ | ⟨msg, rfl, h₁⟩ := exec_bind ho
  · exact h _ h₁ _ h₂
  · trivial
  · exact h _ h₁

/-! ## Programs that keep a property of the state -/

/-- From every state with `I`, a program ends in states with `I` only. -/
def Stable (H : Handler E σ) (I : σ → Prop) (p : Free E α) : Prop :=
  ∀ s, I s → wp H (fun _ => True) p (fun _ s' => I s') s

namespace Stable

variable {I : σ → Prop} {p q : Free E α}

theorem ok (h : Stable H I p) (hs : I s) {a : α} {s' : σ} (hex : Exec H p s (.ok a s')) : I s' :=
  h s hs _ hex

theorem pure (a : α) : Stable H I (Pure.pure a : Free E α) := fun _ hs => wp_pure hs

theorem bind {k : α → Free E β} (h : Stable H I p) (hk : ∀ a, Stable H I (k a)) :
    Stable H I (p >>= k) := fun s hs =>
  wp_bind (wp_mono (h s hs) fun a s' hs' => hk a s' hs')

/-- A call keeps a property that each of its outcomes has. -/
theorem call {e : E α} (h : ∀ s o, I s → H e s o → Good (fun _ => True) (fun _ s' => I s') o) :
    Stable H I (Free.call e) := fun s hs => wp_call fun o => h s o hs

theorem ite {c : Prop} [Decidable c] (hp : Stable H I p) (hq : Stable H I q) :
    Stable H I (if c then p else q) := by
  split
  · exact hp
  · exact hq

end Stable

end Semantics

/-! ## Programs over a part of the state -/

/-- A program over another interface. -/
def Free.translate {E E' : Type → Type 1} {α : Type} (f : ∀ ⦃β : Type⦄, E β → E' β) :
    Free E α → Free E' α
  | .ret a => .ret a
  | .op e k => .op (f e) fun b => (k b).translate f

/-- An outcome of a part as one of the whole. -/
def within {σ τ α : Type} (g : σ → τ) : Outcome σ α → Outcome τ α
  | .ok a s => .ok a (g s)
  | .block => .block
  | .panic msg => .panic msg

/-- A part of a state. -/
structure Lens (τ σ : Type) where
  get : τ → σ
  set : τ → σ → τ
  get_set : ∀ t s, get (set t s) = s
  set_set : ∀ t s s', set (set t s) s' = set t s'
  set_get : ∀ t, set t (get t) = t

section Part

variable {E E' : Type → Type 1} {σ τ α : Type} {f : ∀ ⦃β : Type⦄, E β → E' β} {L : Lens τ σ}
  {H : Handler E σ} {H' : Handler E' τ}

/-- The outcomes of a program that works on a part of the state. -/
theorem exec_translate
    (hH : ∀ ⦃β : Type⦄ (e : E β) t o, H' (f e) t o → ∃ o', H e (L.get t) o' ∧ o = within (L.set t) o')
    {p : Free E α} {t : τ} {o : Outcome τ α} (h : Exec H' (p.translate f) t o) :
    ∃ o', Exec H p (L.get t) o' ∧ o = within (L.set t) o' := by
  induction p generalizing t with
  | ret a =>
    cases h
    exact ⟨_, .ret a _, by rw [within, L.set_get]⟩
  | op e k ih =>
    cases h with
    | @ok _ _ _ _ t' b _ he hk =>
      obtain ⟨o₁, h₁, ho₁⟩ := hH e t _ he
      cases o₁ with
      | ok a s =>
        obtain ⟨rfl, rfl⟩ := Outcome.ok.inj ho₁
        obtain ⟨o', h', rfl⟩ := ih _ hk
        rw [L.get_set] at h'
        refine ⟨o', .ok h₁ h', ?_⟩
        cases o' with
        | ok a' s' => rw [within, within, L.set_set]
        | block => rfl
        | panic msg => rfl
      | block => cases ho₁
      | panic msg => cases ho₁
    | block he =>
      obtain ⟨o₁, h₁, ho₁⟩ := hH e t _ he
      cases o₁ with
      | block => exact ⟨.block, .block h₁, rfl⟩
      | ok a s => cases ho₁
      | panic msg => cases ho₁
    | panic he =>
      obtain ⟨o₁, h₁, ho₁⟩ := hH e t _ he
      cases o₁ with
      | panic msg =>
        cases ho₁
        exact ⟨.panic _, .panic h₁, rfl⟩
      | ok a s => cases ho₁
      | block => cases ho₁

theorem wp_translate {err : String → Prop} {Q : α → τ → Prop}
    (hH : ∀ ⦃β : Type⦄ (e : E β) t o, H' (f e) t o → ∃ o', H e (L.get t) o' ∧ o = within (L.set t) o')
    {p : Free E α} {t : τ} (h : wp H err p (fun a s => Q a (L.set t s)) (L.get t)) :
    wp H' err (p.translate f) Q t := by
  intro o ho
  obtain ⟨o', h', rfl⟩ := exec_translate hH ho
  have hgood := h o' h'
  cases o' with
  | ok a s => exact hgood
  | block => trivial
  | panic msg => exact hgood

end Part

end Eff
