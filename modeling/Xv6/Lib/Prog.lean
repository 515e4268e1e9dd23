import Mathlib.Logic.Relation
import Mathlib.Logic.Function.Basic
import Mathlib.Data.Nat.Notation

/-!
# Programs of atomic sections, and their runs

A kernel thread is a program: a tree of atomic sections, each of which reads and writes a shared
state and hands a value to the rest of the program. A section may also refuse to run in the
current state (`block`: the thread sleeps) or stop the machine (`panic`). The same program is run
in two ways.

* `Runs t p s p' s'`: thread `t` runs alone, from `(p, s)` to `(p', s')`. Every intermediate point
  of a run is reached, so a crash in the middle of `p` is a state `s'` with `Runs t p s p' s'`.
* `Pool`: any number of threads, each idle or inside a call, interleaved at the sections
  (`Pool.Step`).

`WP` is the weakest precondition of a program under interference: a rely `R`, what the other
threads may do between two sections; a guarantee `G`, what every section of this thread does; an
invariant `C`, which holds whenever this thread looks at the state. With `R` equality and `C` a
property of what survives a crash it is a crash logic for one thread (`WP.runs`); with `R` and `G`
matched across threads it is rely-guarantee (`Pool.reachable_safe`).
-/

namespace Conc

/-- The name of a thread. -/
abbrev Tid := ℕ

/-- What an atomic section does in a state. -/
inductive Outcome (σ β : Type)
  /-- The section runs, with a value and a new state. -/
  | ok (b : β) (s : σ)
  /-- The thread sleeps: the section cannot run in this state. -/
  | block
  /-- The machine stops. -/
  | panic (msg : String)

/-- The value of a section that ran. -/
def Outcome.value {σ β : Type} : Outcome σ β → Option β
  | .ok b _ => some b
  | _ => none

theorem Outcome.value_eq_some {σ β : Type} {o : Outcome σ β} {b : β} :
    o.value = some b ↔ ∃ s, o = .ok b s := by
  cases o <;> simp [value]

/-- The section runs into a state of `R`, sleeps, or panics with a message of `M`. -/
def Outcome.Meets {σ β : Type} (R : σ → Prop) (M : String → Prop) : Outcome σ β → Prop
  | .ok _ s => R s
  | .block => True
  | .panic msg => M msg

theorem Outcome.Meets.mono {σ β : Type} {R R' : σ → Prop} {M : String → Prop} {o : Outcome σ β}
    (h : o.Meets R M) (hR : ∀ s, R s → R' s) : o.Meets R' M := by
  cases o with
  | ok b s => exact hR s h
  | block => trivial
  | panic msg => exact h

/-- Go on from a section that ran. -/
def Outcome.andThen {σ β γ : Type} : Outcome σ β → (β → σ → Outcome σ γ) → Outcome σ γ
  | .ok b s, f => f b s
  | .block, _ => .block
  | .panic msg, _ => .panic msg

theorem Outcome.andThen_eq_ok {σ β γ : Type} {o : Outcome σ β} {f : β → σ → Outcome σ γ} {c : γ}
    {s' : σ} : o.andThen f = .ok c s' ↔ ∃ b s, o = .ok b s ∧ f b s = .ok c s' := by
  cases o with
  | ok b s =>
    refine ⟨fun h => ⟨b, s, rfl, h⟩, ?_⟩
    rintro ⟨_, _, h, hf⟩
    obtain ⟨rfl, rfl⟩ := Outcome.ok.inj h
    exact hf
  | block => simp [andThen]
  | panic msg => simp [andThen]

/-- An atomic section, run by a thread. -/
abbrev Action (σ β : Type) := Tid → σ → Outcome σ β

/-- Programs: a value, or an atomic section and what follows it. -/
inductive Prog (σ : Type) (α : Type) : Type 1
  | ret (a : α)
  | act {β : Type} (f : Action σ β) (k : β → Prog σ α)

namespace Prog

variable {σ α β γ : Type}

/-- Run `p`, then `k` on its value. -/
def bind : Prog σ α → (α → Prog σ β) → Prog σ β
  | .ret a, k => k a
  | .act f g, k => .act f fun b => (g b).bind k

instance : Monad (Prog σ) where
  pure := .ret
  bind := bind

/-- A single section. -/
def lift (f : Action σ α) : Prog σ α := .act f .ret

@[simp] theorem pure_eq (a : α) : (pure a : Prog σ α) = .ret a := rfl

@[simp] theorem ret_bind (a : α) (k : α → Prog σ β) : (Prog.ret a >>= k) = k a := rfl

@[simp] theorem act_bind (f : Action σ γ) (g : γ → Prog σ α) (k : α → Prog σ β) :
    (Prog.act f g >>= k) = .act f fun b => g b >>= k := rfl

@[simp] theorem lift_bind (f : Action σ α) (k : α → Prog σ β) :
    (lift f >>= k) = .act f k := rfl

theorem bind_assoc (p : Prog σ α) (k : α → Prog σ β) (l : β → Prog σ γ) :
    (p >>= k) >>= l = p >>= fun a => k a >>= l := by
  induction p with
  | ret a => rfl
  | act f g ih =>
    simp only [act_bind]
    exact congrArg (Prog.act f) (funext ih)

/-! ## One thread -/

/-- Thread `t` alone runs from `(p, s)` to `(p', s')`. -/
inductive Runs (t : Tid) : Prog σ α → σ → Prog σ α → σ → Prop
  | refl (p : Prog σ α) (s : σ) : Runs t p s p s
  | step {δ : Type} {f : Action σ δ} {k : δ → Prog σ α} {s s₁ s' : σ} {b : δ} {p' : Prog σ α}
      (h : f t s = .ok b s₁) (hr : Runs t (k b) s₁ p' s') : Runs t (.act f k) s p' s'

/-- The run of a thread alone to the end of its program. -/
def exec (t : Tid) : Prog σ α → σ → Outcome σ α
  | .ret a, s => .ok a s
  | .act f k, s => (f t s).andThen fun b s' => exec t (k b) s'

theorem runs_of_exec {t : Tid} {p : Prog σ α} {s s' : σ} {a : α} (h : p.exec t s = .ok a s') :
    Runs t p s (.ret a) s' := by
  induction p generalizing s with
  | ret b =>
    obtain ⟨rfl, rfl⟩ : b = a ∧ s = s' := by simpa [exec] using h
    exact .refl _ _
  | act f k ih =>
    obtain ⟨b, s₁, hf, hr⟩ := Outcome.andThen_eq_ok.1 h
    exact .step hf (ih b hr)

theorem exec_of_runs {t : Tid} {p : Prog σ α} {s s' : σ} {a : α} (h : Runs t p s (.ret a) s') :
    p.exec t s = .ok a s' := by
  generalize hp' : Prog.ret a = p' at h
  induction h with
  | refl p s =>
    subst hp'
    rfl
  | step hf _ ih =>
    rw [exec, hf]
    exact ih hp'

theorem exec_bind (t : Tid) (p : Prog σ α) (k : α → Prog σ β) (s : σ) :
    (p >>= k).exec t s = (p.exec t s).andThen fun a s' => (k a).exec t s' := by
  induction p generalizing s with
  | ret a => rfl
  | act f g ih =>
    simp only [act_bind, exec]
    cases f t s with
    | ok b s' => exact ih b s'
    | block => rfl
    | panic msg => rfl

/-- Every section of the program does what `R` says, in any state and by any thread. -/
def Always (R : Tid → σ → σ → Prop) : Prog σ α → Prop
  | .ret _ => True
  | .act f k => (∀ t s b s', f t s = .ok b s' → R t s s') ∧ ∀ b, (k b).Always R

theorem Always.bind {R : Tid → σ → σ → Prop} {p : Prog σ α} {k : α → Prog σ β}
    (hp : p.Always R) (hk : ∀ a, (k a).Always R) : (p >>= k).Always R := by
  induction p with
  | ret a => exact hk a
  | act f g ih => exact ⟨hp.1, fun b => ih b (hp.2 b)⟩

theorem Always.lift {R : Tid → σ → σ → Prop} {f : Action σ α}
    (h : ∀ t s b s', f t s = .ok b s' → R t s s') : (lift f).Always R :=
  ⟨h, fun _ => trivial⟩

/-- Every section of the program does what `R` says when it runs, and panics only with the messages
of `M`. -/
def Obeys (R : Tid → σ → σ → Prop) (M : String → Prop) : Prog σ α → Prop
  | .ret _ => True
  | .act f k => (∀ t s, (f t s).Meets (R t s) M) ∧ ∀ b, (k b).Obeys R M

theorem Obeys.bind {R : Tid → σ → σ → Prop} {M : String → Prop} {p : Prog σ α} {k : α → Prog σ β}
    (hp : p.Obeys R M) (hk : ∀ a, (k a).Obeys R M) : (p >>= k).Obeys R M := by
  induction p with
  | ret a => exact hk a
  | act f g ih => exact ⟨hp.1, fun b => ih b (hp.2 b)⟩

theorem Obeys.lift {R : Tid → σ → σ → Prop} {M : String → Prop} {f : Action σ α}
    (h : ∀ t s, (f t s).Meets (R t s) M) : (lift f).Obeys R M :=
  ⟨h, fun _ => trivial⟩

theorem Obeys.mono {R R' : Tid → σ → σ → Prop} {M : String → Prop} {p : Prog σ α}
    (hp : p.Obeys R M) (hR : ∀ t s s', R t s s' → R' t s s') : p.Obeys R' M := by
  induction p with
  | ret a => trivial
  | act f k ih => exact ⟨fun t s => (hp.1 t s).mono (hR t s), fun b => ih b (hp.2 b)⟩

end Prog

/-! ## Weakest preconditions under interference -/

/-- The obligations of a thread: what it relies on, what it guarantees, the invariant it sees, and
whether its sections may sleep or panic. -/
structure Duty (σ : Type) where
  /-- What the others may do between two sections of this thread. -/
  rely : σ → σ → Prop
  /-- What a section of this thread does. -/
  guar : σ → σ → Prop
  /-- What holds whenever this thread looks at the state. -/
  inv : σ → Prop
  /-- May a section sleep? -/
  mayBlock : Prop
  /-- May a section panic? -/
  mayPanic : Prop

variable {σ α β γ : Type}

/-- The weakest precondition of a program for a postcondition. -/
def WP (D : Duty σ) (t : Tid) : Prog σ α → (α → σ → Prop) → σ → Prop
  | .ret a, Q, s => ∀ s', D.rely s s' → D.inv s' ∧ Q a s'
  | .act f k, Q, s => ∀ s', D.rely s s' → D.inv s' ∧
      match f t s' with
      | .ok b s'' => D.guar s' s'' ∧ WP D t (k b) Q s''
      | .block => D.mayBlock
      | .panic _ => D.mayPanic

namespace WP

variable {D : Duty σ} {t : Tid} {Q Q' : α → σ → Prop} {s s' : σ}

theorem mono {p : Prog σ α} (h : WP D t p Q s) (hQ : ∀ a s, Q a s → Q' a s) : WP D t p Q' s := by
  induction p generalizing s with
  | ret a => exact fun s' hs => ⟨(h s' hs).1, hQ _ _ (h s' hs).2⟩
  | act f k ih =>
    intro s' hs
    obtain ⟨hi, ho⟩ := h s' hs
    refine ⟨hi, ?_⟩
    revert ho
    cases f t s' with
    | ok b s'' => exact fun ho => ⟨ho.1, ih b ho.2⟩
    | block => exact id
    | panic _ => exact id

/-- The rule of sequencing. -/
theorem bind (hR : ∀ s, D.rely s s) {Q : β → σ → Prop} {p : Prog σ α} {k : α → Prog σ β}
    (h : WP D t p (fun a s => WP D t (k a) Q s) s) : WP D t (p >>= k) Q s := by
  induction p generalizing s with
  | ret a => exact (h s (hR s)).2
  | act f g ih =>
    intro s' hs
    obtain ⟨hi, ho⟩ := h s' hs
    refine ⟨hi, ?_⟩
    revert ho
    cases f t s' with
    | ok b s'' => exact fun ho => ⟨ho.1, ih b ho.2⟩
    | block => exact id
    | panic _ => exact id

/-- Interference does not falsify a weakest precondition. -/
theorem stable (hT : ∀ a b c, D.rely a b → D.rely b c → D.rely a c) {p : Prog σ α}
    (h : WP D t p Q s) (hs : D.rely s s') : WP D t p Q s' := by
  cases p with
  | ret a => exact fun s'' hs' => h s'' (hT _ _ _ hs hs')
  | act f k => exact fun s'' hs' => h s'' (hT _ _ _ hs hs')

theorem inv_self (hR : ∀ s, D.rely s s) {p : Prog σ α} (h : WP D t p Q s) : D.inv s := by
  cases p with
  | ret a => exact (h s (hR s)).1
  | act f k => exact (h s (hR s)).1

/-- One section of a program whose weakest precondition holds. -/
theorem of_ok (hR : ∀ s, D.rely s s) {f : Action σ β} {k : β → Prog σ α} {b : β}
    (h : WP D t (.act f k) Q s) (hf : f t s = .ok b s') :
    D.guar s s' ∧ WP D t (k b) Q s' := by
  have h' := (h s (hR s)).2
  rwa [hf] at h'

/-- A thread that runs alone meets its weakest precondition at every point of its run. -/
theorem runs (hR : ∀ s, D.rely s s) {p p' : Prog σ α} (hr : Prog.Runs t p s p' s')
    (h : WP D t p Q s) : WP D t p' Q s' := by
  induction hr with
  | refl p s => exact h
  | step hf _ ih => exact ih (h.of_ok hR hf).2

end WP

/-! ## A thread alone -/

/-- The duty of a thread alone: no interference, an invariant at every point of the run, and no
section that sleeps or panics unless `may` says so. -/
def alone (inv : σ → Prop) (may : Prop) : Duty σ where
  rely := Eq
  guar := fun _ _ => True
  inv := inv
  mayBlock := may
  mayPanic := may

namespace WP

variable {t : Tid} {inv : σ → Prop} {may : Prop} {Q : α → σ → Prop} {s s' : σ}

theorem alone_ret (a : α) (hi : inv s) (h : Q a s) : WP (alone inv may) t (.ret a) Q s := by
  rintro _ rfl
  exact ⟨hi, h⟩

/-- A section that may sleep or panic, seen through its successful outcomes. -/
theorem alone_act {f : Action σ β} {k : β → Prog σ α} (hm : may) (hi : inv s)
    (h : ∀ b s', f t s = .ok b s' → WP (alone inv may) t (k b) Q s') :
    WP (alone inv may) t (.act f k) Q s := by
  rintro _ rfl
  refine ⟨hi, ?_⟩
  cases hf : f t s with
  | ok b s'' => exact ⟨trivial, h b s'' hf⟩
  | block => exact hm
  | panic _ => exact hm

/-- A section with a known successful outcome. -/
theorem alone_ok {f : Action σ β} {k : β → Prog σ α} {b : β} (hi : inv s) (hf : f t s = .ok b s')
    (h : WP (alone inv may) t (k b) Q s') : WP (alone inv may) t (.act f k) Q s := by
  rintro _ rfl
  refine ⟨hi, ?_⟩
  rw [hf]
  exact ⟨trivial, h⟩

theorem alone_bind {Q : β → σ → Prop} {p : Prog σ α} {k : α → Prog σ β}
    (h : WP (alone inv may) t p (fun a s => WP (alone inv may) t (k a) Q s) s) :
    WP (alone inv may) t (p >>= k) Q s :=
  WP.bind (fun _ => rfl) h

/-- A weaker invariant is easier to keep. -/
theorem alone_weaken {inv' : σ → Prop} (hi : ∀ s, inv s → inv' s) {p : Prog σ α}
    (h : WP (alone inv may) t p Q s) : WP (alone inv' may) t p Q s := by
  induction p generalizing s with
  | ret a =>
    rintro _ rfl
    exact ⟨hi s (h s rfl).1, (h s rfl).2⟩
  | act f k ih =>
    rintro _ rfl
    obtain ⟨h₁, h₂⟩ := h s rfl
    refine ⟨hi s h₁, ?_⟩
    revert h₂
    cases f t s with
    | ok b s'' => exact fun h₂ => ⟨trivial, ih b h₂.2⟩
    | block => exact id
    | panic _ => exact id

/-- The invariant holds wherever a run of the program stops. -/
theorem alone_inv {p p' : Prog σ α} (hr : Prog.Runs t p s p' s')
    (h : WP (alone inv may) t p Q s) : inv s' :=
  (WP.runs (fun _ => rfl) hr h).inv_self fun _ => rfl

/-- The postcondition holds where the program returns. -/
theorem alone_post {p : Prog σ α} {a : α} (hr : Prog.Runs t p s (.ret a) s')
    (h : WP (alone inv may) t p Q s) : Q a s' :=
  (WP.runs (fun _ => rfl) hr h s' rfl).2

/-- A program none of whose sections may sleep or panic returns. -/
theorem alone_total {p : Prog σ α} (h : WP (alone inv False) t p Q s) :
    ∃ a s', Prog.Runs t p s (.ret a) s' := by
  induction p generalizing s with
  | ret a => exact ⟨a, s, .refl _ _⟩
  | act f k ih =>
    have h' := (h s rfl).2
    cases hf : f t s with
    | ok b s'' =>
      rw [hf] at h'
      obtain ⟨a, s', hr⟩ := ih b h'.2
      exact ⟨a, s', .step hf hr⟩
    | block => rw [hf] at h'; exact h'.elim
    | panic _ => rw [hf] at h'; exact h'.elim

end WP

/-! ## Many threads -/

/-- A thread of a pool: idle, or inside a call, with the program left to run. -/
inductive Thread (σ ι ρ : Type) : Type 1
  | idle
  | run (c : ι) (p : Prog σ ρ)

/-- A shared state and the threads that run over it. -/
structure Pool (σ ι ρ : Type) : Type 1 where
  shared : σ
  thread : Tid → Thread σ ι ρ

namespace Pool

variable {ι ρ : Type}

/-- One step of a pool whose calls have the programs `body`: an idle thread starts a call, a thread
runs the next section of its call, or a call that has returned ends. -/
inductive Step (body : ι → Prog σ ρ) : Pool σ ι ρ → Pool σ ι ρ → Prop
  | start {P : Pool σ ι ρ} {t : Tid} (c : ι) (h : P.thread t = .idle) :
      Step body P ⟨P.shared, Function.update P.thread t (.run c (body c))⟩
  | act {P : Pool σ ι ρ} {t : Tid} {c : ι} {δ : Type} {f : Action σ δ} {k : δ → Prog σ ρ} {b : δ}
      {s' : σ}
      (h : P.thread t = .run c (.act f k)) (hf : f t P.shared = .ok b s') :
      Step body P ⟨s', Function.update P.thread t (.run c (k b))⟩
  | finish {P : Pool σ ι ρ} {t : Tid} {c : ι} {r : ρ} (h : P.thread t = .run c (.ret r)) :
      Step body P ⟨P.shared, Function.update P.thread t .idle⟩

/-- The pools reached from `P`. -/
def Reaches (body : ι → Prog σ ρ) : Pool σ ι ρ → Pool σ ι ρ → Prop :=
  Relation.ReflTransGen (Step body)

/-- The pool in which every thread is idle. -/
def init (s : σ) : Pool σ ι ρ := ⟨s, fun _ => .idle⟩

/-- A thread inside a call runs on without interruption. -/
theorem reaches_runs (body : ι → Prog σ ρ) (th : Tid → Thread σ ι ρ) {t : Tid} {c : ι}
    {p p' : Prog σ ρ} {s s' : σ} (h : Prog.Runs t p s p' s') :
    Reaches body ⟨s, Function.update th t (.run c p)⟩ ⟨s', Function.update th t (.run c p')⟩ := by
  induction h with
  | refl => exact .refl
  | @step _ f k s s₁ s' b p' hf _ ih =>
    have hrun : Function.update th t (.run c (.act f k)) t = .run c (.act f k) :=
      Function.update_self _ _ _
    have hstep : Step body ⟨s, Function.update th t (.run c (.act f k))⟩
        ⟨s₁, Function.update (Function.update th t (.run c (.act f k))) t (.run c (k b))⟩ :=
      .act hrun hf
    rw [Function.update_idem] at hstep
    exact .head hstep ih

/-- An idle thread makes a call that runs to its end without interruption, and stops there. -/
theorem Reaches.call {body : ι → Prog σ ρ} {P : Pool σ ι ρ} {t : Tid} {c : ι} {r : ρ} {s' : σ}
    (ht : P.thread t = .idle) (hr : Prog.Runs t (body c) P.shared (.ret r) s') :
    Reaches body P ⟨s', Function.update P.thread t (.run c (.ret r))⟩ :=
  .head (Step.start c ht) (reaches_runs body P.thread hr)

/-- Every thread inside a call meets the weakest precondition of what it has left to run. -/
structure Safe (D : Tid → Duty σ) (Q : Tid → ι → ρ → σ → Prop) (I : σ → Prop)
    (P : Pool σ ι ρ) : Prop where
  inv : I P.shared
  wp : ∀ t c p, P.thread t = .run c p → WP (D t) t p (Q t c) P.shared

section Safe

variable {body : ι → Prog σ ρ} {D : Tid → Duty σ} {Q : Tid → ι → ρ → σ → Prop} {I : σ → Prop}

/-- The rules a family of duties obeys: relies are preorders, what one thread guarantees the others
rely on, and guarantees keep the invariant. -/
structure Rules (D : Tid → Duty σ) (I : σ → Prop) : Prop where
  rely_refl : ∀ t s, (D t).rely s s
  rely_trans : ∀ t a b c, (D t).rely a b → (D t).rely b c → (D t).rely a c
  guar_rely : ∀ t u s s', t ≠ u → I s → (D t).guar s s' → (D u).rely s s'
  guar_inv : ∀ t s s', I s → (D t).guar s s' → I s'

theorem Safe.step (hD : Rules D I) (hbody : ∀ t c s, I s → WP (D t) t (body c) (Q t c) s)
    {P P' : Pool σ ι ρ} (h : Safe D Q I P) (hs : Step body P P') : Safe D Q I P' := by
  cases hs with
  | @start t c ht =>
    refine ⟨h.inv, fun u c' p hu => ?_⟩
    by_cases hut : u = t
    · subst hut
      simp only [Function.update_self, Thread.run.injEq] at hu
      obtain ⟨rfl, rfl⟩ := hu
      exact hbody u c _ h.inv
    · simp only [Function.update_of_ne hut] at hu
      exact h.wp u c' p hu
  | @act t c _ f k b s' ht hf =>
    obtain ⟨hg, hk⟩ := (h.wp t c _ ht).of_ok (hD.rely_refl t) hf
    refine ⟨hD.guar_inv t _ _ h.inv hg, fun u c' p hu => ?_⟩
    by_cases hut : u = t
    · subst hut
      simp only [Function.update_self, Thread.run.injEq] at hu
      obtain ⟨rfl, rfl⟩ := hu
      exact hk
    · simp only [Function.update_of_ne hut] at hu
      exact (h.wp u c' p hu).stable (hD.rely_trans u)
        (hD.guar_rely t u _ _ (Ne.symm hut) h.inv hg)
  | @finish t c r ht =>
    refine ⟨h.inv, fun u c' p hu => ?_⟩
    by_cases hut : u = t
    · subst hut
      simp at hu
    · simp only [Function.update_of_ne hut] at hu
      exact h.wp u c' p hu

/-- **Rely-guarantee**: when every call meets its weakest precondition from any state of the
invariant, every pool reached from an idle one is safe. -/
theorem reachable_safe (hD : Rules D I) (hbody : ∀ t c s, I s → WP (D t) t (body c) (Q t c) s)
    {s : σ} (hs : I s) {P : Pool σ ι ρ} (hP : Reaches body (init s) P) : Safe D Q I P := by
  induction hP with
  | refl => exact ⟨hs, fun t c p h => by simp [init] at h⟩
  | tail _ hstep ih => exact ih.step hD hbody hstep

end Safe

end Pool

end Conc
