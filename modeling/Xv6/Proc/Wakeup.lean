import Xv6.Proc.Life

/-!
# No lost wakeups

A process that sleeps still has something to wait for. Whoever makes the condition of a loop around
`sleep` false wakes the channel in the same turn, so no process sleeps on past its condition. The
loops that look at `killed` first do not sleep in a killed process either, since `kkill` ends the
sleep of its victim.
-/

namespace Xv6

/-- A process that waits for children waits for its own. -/
theorem Task.eq_of_sleepsOn_proc {t : Task} {p q : ProcId} (h : t.sleepsOn p = some (.proc q)) :
    q = p := by
  cases t <;> simp [Task.sleepsOn] at h
  exact h.symm

namespace Kernel

/-- What holds of the processes that sleep, in every run. -/
structure Waits (K : Kernel) : Prop where
  /-- A channel is the one of the place where the process is. -/
  chan : ∀ p ch, (K.proc p).chan = some ch → (K.task p).sleepsOn p = some ch
  /-- A process that has not started, or has exited, is in no function. -/
  dead : ∀ p, ¬ (K.proc p).state.Alive → K.task p = .user
  sleeping : ∀ p, (K.proc p).state = .sleeping → ∃ ch, (K.proc p).chan = some ch ∧
    K.Stuck ch (K.task p) ∧ ((K.task p).Killable → (K.proc p).killed = false)

variable {K K' : Kernel} {env : Env} {p q : ProcId} {t : Task} {r : Ret} {l : Label} {ch : Chan}
  {W : Set Chan}

/-- Conditions read the objects, and who has which children. -/
theorem Stuck.congr (hs : K.Stuck ch t) (hlock : K'.lock = K.lock) (hlog : K'.log = K.log)
    (hpipe : K'.pipe = K.pipe) (hcons : K'.cons = K.cons) (hticks : K'.ticks = K.ticks)
    (hproc : ∀ r, ch = .proc r → (∀ c, (K.proc c).parent = some r → (K'.proc c).parent = some r) ∧
      ∀ c, (K'.proc c).parent = some r → (K'.proc c).state = .zombie →
        (K.proc c).parent = some r ∧ (K.proc c).state = .zombie) : K'.Stuck ch t := by
  cases ch with
  | sleeplock j =>
    change (K'.lock j).locked = true
    rw [hlock]
    exact hs
  | log =>
    change K'.log.committing = true ∨ (K'.log.n : ℤ) + (K'.log.outstanding + 1) * 10 > 30
    rw [hlog]
    exact hs
  | nread j =>
    change (K'.pipe j).Empty ∧ (K'.pipe j).writeopen = true
    rw [hpipe]
    exact hs
  | nwrite j =>
    change (K'.pipe j).Full ∧ (K'.pipe j).readopen = true
    rw [hpipe]
    exact hs
  | proc r =>
    obtain ⟨hkeep, hz⟩ := hproc r rfl
    refine ⟨hs.1.imp hkeep, fun c hc hzom => ?_⟩
    obtain ⟨hc', hzom'⟩ := hz c hc hzom
    exact hs.2 c hc' hzom'
  | cons =>
    change K'.cons.r = K'.cons.w
    rw [hcons]
    exact hs
  | ticks =>
    cases t with
    | pauseLoop n ticks0 =>
      change (K'.ticks - ticks0).toNat < n.toNat
      rw [hticks]
      exact hs
    | _ => exact hs

/-- Mild steps that touch no object. -/
theorem Mild.stuck (m : Mild K K') (hs : K.Stuck ch t) (hlock : K'.lock = K.lock)
    (hlog : K'.log = K.log) (hpipe : K'.pipe = K.pipe) (hcons : K'.cons = K.cons)
    (hticks : K'.ticks = K.ticks) : K'.Stuck ch t :=
  hs.congr hlock hlog hpipe hcons hticks fun _ _ =>
    ⟨fun c hc => (m.parent c).trans hc,
      fun c hc hz => ⟨(m.parent c).symm.trans hc, (m.state_iff (by decide)).1 hz⟩⟩

/-- Replacing a process by one that does not sleep. -/
theorem Waits.setProc {x : Proc} (h : K.Waits) (m : Mild K (K.setProc p x))
    (hx : x.state ≠ .sleeping) (hchan : x.chan = (K.proc p).chan ∨ x.chan = none) :
    (K.setProc p x).Waits where
  chan q c hq := by
    by_cases hqp : q = p
    · subst hqp
      simp only [setProc_proc, if_true] at hq
      rcases hchan with he | he
      · exact h.chan q c (he ▸ hq)
      · simp [he] at hq
    · exact h.chan q c (by simpa [hqp] using hq)
  dead q hq := by
    refine h.dead q fun ha => hq (m.alive ha)
  sleeping q hq := by
    by_cases hqp : q = p
    · simp [hqp, hx] at hq
    · simp only [setProc_proc, hqp, if_false] at hq ⊢
      obtain ⟨c, hc, hs, hk⟩ := h.sleeping q hq
      exact ⟨c, hc, m.stuck hs rfl rfl rfl rfl rfl, hk⟩

/-- Who is on the CPU does not matter to those who sleep. -/
theorem Waits.withCpu (h : K.Waits) (c : Option ProcId) : { K with cpu := c }.Waits where
  chan := h.chan
  dead := h.dead
  sleeping q hq := by
    obtain ⟨ch, hch, hs, hk⟩ := h.sleeping q hq
    exact ⟨ch, hch, hs.congr rfl rfl rfl rfl rfl fun _ _ => ⟨fun _ hc => hc, fun _ h₁ h₂ => ⟨h₁, h₂⟩⟩,
      hk⟩

theorem Waits.resume (h : K.Waits) (hrun : (K.proc p).state = .running) : (K.resume p).Waits :=
  h.setProc (mild_resume K p) (by simp [hrun]) (.inr rfl)

/-- A process with nothing to wait for goes elsewhere. -/
theorem Waits.setTask (h : K.Waits) (hrun : (K.proc p).state = .running)
    (hchan : (K.proc p).chan = none) : (K.setTask p t).Waits where
  chan q c hq := by
    by_cases hqp : q = p
    · simp [hqp, hchan] at hq
    · simpa [hqp] using h.chan q c hq
  dead q hq := by
    rw [setTask_proc] at hq
    have hqp : q ≠ p := fun he => hq (he ▸ .inr (.inr hrun))
    simpa [hqp] using h.dead q hq
  sleeping q hq := by
    have hqp : q ≠ p := fun he => by
      rw [he, setTask_proc, hrun] at hq
      cases hq
    obtain ⟨c, hc, hs, hk⟩ := h.sleeping q hq
    refine ⟨c, hc, ?_, by simpa [hqp] using hk⟩
    simp only [setTask_task, hqp, if_false]
    exact hs.congr rfl rfl rfl rfl rfl fun _ _ => ⟨fun _ hc => hc, fun _ h₁ h₂ => ⟨h₁, h₂⟩⟩

/-- Those who sleep on after objects were touched wait on other channels, with their condition
still true. -/
theorem Waits.touches (h : K.Waits) (hsched : ∀ p, (K.proc p).state = .running ↔ K.cpu = some p)
    (ht : Touches p W K K') : K'.Waits where
  chan q c hq := by
    rw [ht.task]
    refine h.chan q c ?_
    rcases ht.proc q with he | ⟨-, he⟩ <;> rwa [he] at hq
  dead q hq := by
    rw [ht.task]
    exact h.dead q fun ha => hq (ht.mild.alive ha)
  sleeping q hq := by
    have hsame : K'.proc q = K.proc q := by
      rcases ht.proc q with he | ⟨-, he⟩
      · exact he
      · simp [he] at hq
    have hq' : (K.proc q).state = .sleeping := hsame ▸ hq
    obtain ⟨c, hc, hs, hk⟩ := h.sleeping q hq'
    have hcpu : some q ≠ K.cpu := fun he => by
      rw [(hsched q).2 he.symm] at hq'
      cases hq'
    have hcW : c ∉ W := fun hW => ht.woken q hcpu hq c hW hc
    rw [hsame, ht.task]
    exact ⟨c, hc, ht.stuck c _ hcW hs, hk⟩

/-- A process goes to sleep on a condition that is true. -/
theorem Waits.sleep (h : K.Waits) (hrun : (K.proc p).state = .running)
    (hch : t.sleepsOn p = some ch) (hs : K.Stuck ch t)
    (hk : t.Killable → (K.proc p).killed = false) : (K.sleep p ch t).Waits where
  chan q c hq := by
    by_cases hqp : q = p
    · subst hqp
      obtain rfl : ch = c := by simpa [Kernel.sleep] using hq
      simpa [Kernel.sleep] using hch
    · simpa [Kernel.sleep, hqp] using h.chan q c (by simpa [Kernel.sleep, hqp] using hq)
  dead q hq := by
    by_cases hqp : q = p
    · exact absurd (by simp [Kernel.sleep, hqp, ProcState.Alive]) hq
    · simpa [Kernel.sleep, hqp] using h.dead q (by simpa [Kernel.sleep, hqp] using hq)
  sleeping q hq := by
    have hmove : ∀ {c s}, K.Stuck c s → (K.sleep p ch t).Stuck c s := fun hs =>
      hs.congr rfl rfl rfl rfl rfl fun _ _ => by
        have hsame : ∀ c, ((K.sleep p ch t).proc c).parent = (K.proc c).parent := by
          intro c
          by_cases hc : c = p <;> simp [Kernel.sleep, hc]
        refine ⟨fun c hc => (hsame c).trans hc, fun c hc hz => ⟨(hsame c).symm.trans hc, ?_⟩⟩
        by_cases hcp : c = p
        · simp [Kernel.sleep, hcp] at hz
        · simpa [Kernel.sleep, hcp] using hz
    by_cases hqp : q = p
    · subst hqp
      refine ⟨ch, by simp [Kernel.sleep], ?_, by simpa [Kernel.sleep] using hk⟩
      have ht : (K.sleep q ch t).task q = t := by simp [Kernel.sleep]
      rw [ht]
      exact hmove hs
    · obtain ⟨c, hc, hs', hk'⟩ := h.sleeping q (by simpa [Kernel.sleep, hqp] using hq)
      have ht : (K.sleep p ch t).task q = K.task q := by simp [Kernel.sleep, hqp]
      refine ⟨c, by simpa [Kernel.sleep, hqp] using hc, ?_, ?_⟩
      · rw [ht]
        exact hmove hs'
      · rw [ht]
        simpa [Kernel.sleep, hqp] using hk'

/-! ## Changes of the process table -/

/-- A change of the table keeps the invariant if it leaves those who sleep as they are, with the
children they wait for. -/
theorem Waits.table (h : K.Waits) (hlock : K'.lock = K.lock) (hlog : K'.log = K.log)
    (hpipe : K'.pipe = K.pipe) (hcons : K'.cons = K.cons) (hticks : K'.ticks = K.ticks)
    (hchan : ∀ q ch, (K'.proc q).chan = some ch →
      (K.proc q).chan = some ch ∧ K'.task q = K.task q)
    (hdead : ∀ q, ¬ (K'.proc q).state.Alive → K'.task q = .user)
    (hsleep : ∀ q, (K'.proc q).state = .sleeping → (K.proc q).state = .sleeping ∧
      (K'.proc q).chan = (K.proc q).chan ∧ (K'.proc q).killed = (K.proc q).killed ∧
      K'.task q = K.task q)
    (hproc : ∀ q, (K'.proc q).state = .sleeping → (K.proc q).chan = some (.proc q) →
      (∀ c, (K.proc c).parent = some q → (K'.proc c).parent = some q) ∧
      ∀ c, (K'.proc c).parent = some q → (K'.proc c).state = .zombie →
        (K.proc c).parent = some q ∧ (K.proc c).state = .zombie) : K'.Waits where
  chan q c hq := by
    obtain ⟨hc, ht⟩ := hchan q c hq
    rw [ht]
    exact h.chan q c hc
  dead := hdead
  sleeping q hq := by
    obtain ⟨hs, hc, hk, ht⟩ := hsleep q hq
    obtain ⟨c, hch, hst, hkill⟩ := h.sleeping q hs
    rw [hc, hk, ht]
    refine ⟨c, hch, hst.congr hlock hlog hpipe hcons hticks fun r hr => ?_, hkill⟩
    subst hr
    obtain rfl : r = q := Task.eq_of_sleepsOn_proc (h.chan q _ hch)
    exact hproc r hq hch

variable {np : ProcId} {pid : BitVec 32}

/-- A change of one slot other than the caller's, after which the caller goes on. -/
theorem Waits.slot {x : Proc} {K₁ : Kernel} (h : K.Waits) (hl : K.Life) (hcpu : K.cpu = some p)
    (hchan : (K.proc p).chan = none) (hnp : np ≠ p)
    (hproc : ∀ c, K₁.proc c = if c = np then x else K.proc c) (htask : K₁.task = K.task)
    (hlock : K₁.lock = K.lock) (hlog : K₁.log = K.log) (hpipe : K₁.pipe = K.pipe)
    (hcons : K₁.cons = K.cons) (hticks : K₁.ticks = K.ticks) (hnpt : K.task np = .user)
    (hx : x.chan = none ∨ x.chan = (K.proc np).chan) (hxs : x.state ≠ .sleeping)
    (hpar : ∀ q, (K.proc q).state = .sleeping →
      ((K.proc np).parent = some q → x.parent = some q) ∧
      (x.parent = some q → x.state = .zombie →
        (K.proc np).parent = some q ∧ (K.proc np).state = .zombie)) :
    (K₁.setTask p t).Waits := by
  have hrun : (K.proc p).state = .running := (hl.sched p).2 hcpu
  have hne : ∀ c, c ≠ np → K₁.proc c = K.proc c := fun c hc => by rw [hproc, if_neg hc]
  have heq : K₁.proc np = x := by rw [hproc, if_pos rfl]
  have ht : ∀ c, c ≠ p → (K₁.setTask p t).task c = K.task c := fun c hc => by simp [hc, htask]
  have hsl : ∀ q, (K₁.proc q).state = .sleeping → q ≠ np ∧ (K.proc q).state = .sleeping := by
    intro q hq
    have hqn : q ≠ np := fun he => hxs (by rwa [he, heq] at hq)
    exact ⟨hqn, by rwa [hne q hqn] at hq⟩
  refine h.table hlock hlog hpipe hcons hticks (fun q c hq => ?_) (fun q hq => ?_)
    (fun q hq => ?_) fun q hq _ => ⟨fun c hc => ?_, fun c hc hz => ?_⟩
  · simp only [setTask_proc] at hq
    have hq' : (K.proc q).chan = some c := by
      by_cases hqn : q = np
      · rw [hqn, heq] at hq
        rcases hx with hx | hx
        · simp [hx] at hq
        · rwa [hqn, ← hx]
      · rwa [hne q hqn] at hq
    have hqp : q ≠ p := fun he => by simp [he, hchan] at hq'
    exact ⟨hq', ht q hqp⟩
  · simp only [setTask_proc] at hq
    have hqp : q ≠ p := fun he => hq (by
      rw [he, hne p (Ne.symm hnp), hrun]
      exact .inr (.inr rfl))
    rw [ht q hqp]
    by_cases hqn : q = np
    · rw [hqn, hnpt]
    · exact h.dead q (by rwa [hne q hqn] at hq)
  · simp only [setTask_proc] at hq ⊢
    obtain ⟨hqn, hq'⟩ := hsl q hq
    have hqp : q ≠ p := fun he => by simp [he, hrun] at hq'
    rw [hne q hqn]
    exact ⟨hq', rfl, rfl, ht q hqp⟩
  · have hq' := (hsl q hq).2
    simp only [setTask_proc]
    by_cases hcn : c = np
    · rw [hcn, heq]
      exact (hpar q hq').1 (hcn ▸ hc)
    · rwa [hne c hcn]
  · have hq' := (hsl q hq).2
    simp only [setTask_proc] at hc hz
    by_cases hcn : c = np
    · rw [hcn, heq] at hc hz
      rw [hcn]
      exact (hpar q hq').2 hc hz
    · rw [hne c hcn] at hc hz
      exact ⟨hc, hz⟩

theorem Waits.take (h : K.Waits) (hl : K.Life) (hcpu : K.cpu = some p)
    (hchan : (K.proc p).chan = none) (hu : (K.proc np).state = .unused) :
    (((K.takeSlot np).setTask np .user).setTask p (.forkParent np pid)).Waits := by
  have hnpt : K.task np = .user := h.dead np (by simp [hu, ProcState.Alive])
  have htask : ((K.takeSlot np).setTask np .user).task = K.task := by
    funext c
    by_cases hc : c = np
    · simp [hc, hnpt]
    · simp [hc, takeSlot]
  exact h.slot hl hcpu hchan (hl.ne_of_used hcpu (by simp [hu])) (fun _ => rfl) htask
    rfl rfl rfl rfl rfl hnpt (.inr rfl) (by simp) fun _ _ => ⟨id, fun _ hz => by simp at hz⟩

/-- Freeing a slot whose process no sleeper waits for. -/
theorem Waits.free {K₁ : Kernel} (h : K.Waits) (hl : K.Life) (hcpu : K.cpu = some p)
    (hchan : (K.proc p).chan = none) (hq : ¬ (K.proc q).state.Alive)
    (hpar : ∀ c, (K.proc c).state = .sleeping → (K.proc q).parent ≠ some c)
    (hproc : ∀ c, K₁.proc c = if c = q then ⟨.unused, none, false, 0, 0, none⟩ else K.proc c)
    (htask : K₁.task = K.task) (hlock : K₁.lock = K.lock) (hlog : K₁.log = K.log)
    (hpipe : K₁.pipe = K.pipe) (hcons : K₁.cons = K.cons) (hticks : K₁.ticks = K.ticks) :
    (K₁.setTask p .user).Waits := by
  have hqp : q ≠ p := hl.ne_of_used hcpu fun hr => hq (.inr (.inr hr))
  exact h.slot hl hcpu hchan hqp hproc htask hlock hlog hpipe hcons hticks (h.dead q hq) (.inl rfl)
    (by simp) fun c hc => ⟨fun he => absurd he (hpar c hc), fun he => by simp at he⟩

theorem Waits.drop (h : K.Waits) (hl : K.Life) (hcpu : K.cpu = some p)
    (hchan : (K.proc p).chan = none) (hu : (K.proc np).state = .unused) :
    (((K.takeSlot np).freeproc np).setTask p .user).Waits := by
  refine h.free (q := np) hl hcpu hchan (by simp [hu, ProcState.Alive])
    (fun c _ => by simp [(hl.unused np hu).2]) (fun c => ?_) rfl rfl rfl rfl rfl rfl
  rw [freeproc_proc]
  by_cases hc : c = np
  · simp [hc]
  · simp [takeSlot, hc]

/-- Only its own parent waits for a child, and that one is not asleep. -/
theorem Waits.reap (h : K.Waits) (hl : K.Life) (hcpu : K.cpu = some p)
    (hchan : (K.proc p).chan = none) (hq : K.zombieChild p = some q) :
    ((K.freeproc q).setTask p .user).Waits := by
  obtain ⟨hpar, hz⟩ := zombieChild_eq_some hq
  have hrun : (K.proc p).state = .running := (hl.sched p).2 hcpu
  refine h.free hl hcpu hchan (by simp [hz, ProcState.Alive]) (fun c hc he => ?_)
    (freeproc_proc K q) rfl rfl rfl rfl rfl rfl
  obtain rfl : p = c := Option.some.inj (hpar.symm.trans he)
  simp [hrun] at hc

theorem Waits.setParent (h : K.Waits) (hl : K.Life) (hcpu : K.cpu = some p)
    (hchan : (K.proc p).chan = none) (ht : K.task p = .forkParent np pid) :
    ((K.setProc np { K.proc np with parent := some p }).setTask p (.forkRunnable np pid)).Waits := by
  have hused : (K.proc np).state = .used := hl.newborn p np (by rw [ht]; rfl)
  have horphan : (K.proc np).parent = none := hl.orphan p np pid ht
  have hnpt : K.task np = .user := h.dead np (by simp [hused, ProcState.Alive])
  exact h.slot hl hcpu hchan (hl.ne_of_used hcpu (by simp [hused])) (fun _ => rfl) rfl
    rfl rfl rfl rfl rfl hnpt (.inr rfl) (by simp [hused])
    fun _ _ => ⟨fun he => by simp [horphan] at he, fun _ hz => by simp [hused] at hz⟩

theorem Waits.setRunnable (h : K.Waits) (hl : K.Life) (hcpu : K.cpu = some p)
    (hchan : (K.proc p).chan = none) (ht : K.task p = .forkRunnable np pid) :
    ((K.setProc np { K.proc np with state := .runnable }).setTask p .user).Waits := by
  have hused : (K.proc np).state = .used := hl.newborn p np (by rw [ht]; rfl)
  have hnpt : K.task np = .user := h.dead np (by simp [hused, ProcState.Alive])
  exact h.slot hl hcpu hchan (hl.ne_of_used hcpu (by simp [hused])) (fun _ => rfl) rfl
    rfl rfl rfl rfl rfl hnpt (.inr rfl) (by simp) fun _ _ => ⟨id, fun _ hz => by simp at hz⟩

/-! ## `kexit` -/

/-- Who sleeps on after `kexit` has called `wakeup` is neither init with new children nor the
parent of the process. -/
theorem leave_sleeping (hcpu : some q ≠ K.cpu) (hq : ((K.leave p).proc q).state = .sleeping) :
    (K.leave p).proc q = { K.proc q with parent := K.heir p q } ∧
      ((∃ c, (K.proc c).parent = some p) → (K.proc q).chan ≠ some (.proc K.initproc)) ∧
      ∀ r, K.heir p p = some r → (K.proc q).chan ≠ some (.proc r) := by
  have hsame : (K.leave p).proc q = { K.proc q with parent := K.heir p q } := by
    rcases leave_proc K p q with h | ⟨-, h⟩
    · exact h
    · simp [h] at hq
  -- asleep at the end, so asleep after `reparent`
  have hmid : ((K.reparent p).proc q).state = .sleeping ∧
      ((K.reparent p).proc q).chan = (K.proc q).chan := by
    have hq' : (((K.reparent p).wakeup (((K.reparent p).proc p).parent.map .proc)).proc q).state =
      .sleeping := hq
    rcases wakeup_proc (K.reparent p) (((K.reparent p).proc p).parent.map .proc) q with h | ⟨-, h⟩
    · rw [h] at hq'
      refine ⟨hq', ?_⟩
      rcases reparent_proc K p q with h' | ⟨-, h'⟩ <;> rw [h']
    · simp [h] at hq'
  have hcpu' : some q ≠ (K.reparent p).cpu := by
    unfold reparent
    split <;> exact hcpu
  refine ⟨hsame, fun hkids => ?_, fun r hr => ?_⟩
  · have hs := hmid.1
    unfold reparent at hs
    rw [if_pos hkids] at hs
    have hw := wakeup_woken (K.adopt p) (.proc K.initproc) hcpu hs
    have hc : ((K.adopt p).proc q).chan = (K.proc q).chan := by
      simp only [adopt]
      split <;> rfl
    rwa [hc] at hw
  · have hpar : ((K.reparent p).proc p).parent = some r := by
      rcases reparent_proc K p p with h' | ⟨-, h'⟩ <;> rw [h'] <;> exact hr
    have he : K.leave p = (K.reparent p).wakeup (some (.proc r)) := by
      rw [leave, hpar, Option.map_some]
    rw [he] at hq
    have hw := wakeup_woken (K.reparent p) (.proc r) hcpu' hq
    rwa [hmid.2] at hw

theorem leave_objects (K : Kernel) (p : ProcId) : (K.leave p).lock = K.lock ∧
    (K.leave p).pipe = K.pipe ∧ (K.leave p).cons = K.cons ∧ (K.leave p).ticks = K.ticks := by
  unfold leave reparent
  split <;> exact ⟨rfl, rfl, rfl, rfl⟩

theorem Waits.exit (h : K.Waits) (hcpu : K.cpu = some p) (hchan : (K.proc p).chan = none)
    (status : ℤ) : ((K.leave p).exitProc p status).Waits := by
  obtain ⟨-, -, htask, hlog, -⟩ := leave_same K p
  obtain ⟨hlock, hpipe, hcons, hticks⟩ := leave_objects K p
  have hne : ∀ c, c ≠ p → ((K.leave p).exitProc p status).proc c = (K.leave p).proc c :=
    fun c hc => by simp [exitProc, hc]
  have hpar : ∀ c, (((K.leave p).exitProc p status).proc c).parent = K.heir p c := by
    intro c
    by_cases hc : c = p <;> simp [exitProc, hc, leave_parent]
  have ht : ∀ c, c ≠ p → ((K.leave p).exitProc p status).task c = K.task c :=
    fun c hc => by simp [exitProc, hc, htask]
  have hchan' : ∀ c, (((K.leave p).exitProc p status).proc c).chan = (K.proc c).chan := by
    intro c
    have hc' : ((K.leave p).proc c).chan = (K.proc c).chan := by
      rcases leave_proc K p c with he | ⟨-, he⟩ <;> rw [he]
    by_cases hc : c = p
    · subst hc
      simpa [exitProc] using hc'
    · rw [hne c hc, hc']
  have hsl : ∀ q, (((K.leave p).exitProc p status).proc q).state = .sleeping → q ≠ p ∧
      some q ≠ K.cpu ∧ ((K.leave p).proc q).state = .sleeping := by
    intro q hq
    have hqp : q ≠ p := fun he => by simp [he, exitProc] at hq
    refine ⟨hqp, ?_, by rwa [hne q hqp] at hq⟩
    rw [hcpu]
    exact fun he => hqp (Option.some.inj he)
  refine h.table hlock hlog hpipe hcons hticks (fun q c hq => ?_) (fun q hq => ?_)
    (fun q hq => ?_) fun q hq hqc => ⟨fun c hc => ?_, fun c hc hz => ?_⟩
  · rw [hchan'] at hq
    have hqp : q ≠ p := fun he => by simp [he, hchan] at hq
    exact ⟨hq, ht q hqp⟩
  · by_cases hqp : q = p
    · simp [exitProc, hqp]
    · rw [ht q hqp]
      rw [hne q hqp, leave_alive] at hq
      exact h.dead q hq
  · obtain ⟨hqp, hqcpu, hs⟩ := hsl q hq
    obtain ⟨hsame, -⟩ := leave_sleeping hqcpu hs
    rw [hne q hqp, hsame]
    rw [hsame] at hs
    exact ⟨hs, rfl, rfl, ht q hqp⟩
  · have hqp := (hsl q hq).1
    rw [hpar]
    simp [heir, hc, hqp]
  · obtain ⟨hqp, hqcpu, hs⟩ := hsl q hq
    obtain ⟨-, hkids, hparent⟩ := leave_sleeping hqcpu hs
    rw [hpar] at hc
    -- the parent of `p` has been woken
    have hcp : c ≠ p := fun he => hparent q (he ▸ hc) hqc
    rw [hne c hcp, leave_state_iff K p c (by simp) (by simp)] at hz
    refine ⟨?_, hz⟩
    unfold heir at hc
    split at hc
    · -- and so has init, if it got a child
      rename_i hkid
      obtain rfl : K.initproc = q := Option.some.inj hc
      exact absurd hqc (hkids ⟨c, hkid⟩)
    · exact hc

/-! ## Every step -/

theorem Waits.turned (h : K.Waits) (hl : K.Life) (hcpu : K.cpu = some p)
    (hchan : (K.proc p).chan = none) (ht : Turned K env p (K.task p) r K') : K'.Waits := by
  have hrun : (K.proc p).state = .running := (hl.sched p).2 hcpu
  generalize htp : K.task p = t at ht
  cases ht with
  | goes hT hr hplain =>
    have hchan₁ := congrArg Proc.chan (hT.proc_eq hrun)
    exact (h.touches hl.sched hT).setTask (hT.running hrun) (hchan₁.trans hchan)
  | blocks hT hch hs hk =>
    have hkill := congrArg Proc.killed (hT.proc_eq hrun)
    exact (h.touches hl.sched hT).sleep (hT.running hrun) hch hs fun hK => hkill.trans (hk hK)
  | take np hu => exact h.take hl hcpu hchan hu
  | drop np hu => exact h.drop hl hcpu hchan hu
  | parent np pid => exact h.setParent hl hcpu hchan htp
  | runnable np pid => exact h.setRunnable hl hcpu hchan htp
  | exit status hp => exact h.exit hcpu hchan status
  | reap addr q hq ha => exact h.reap hl hcpu hchan hq
  | hit pid q hq =>
    have hw : (K.kill q).Waits := by
      refine h.setProc (mild_kill K q) ?_ (.inl rfl)
      by_cases hs : (K.proc q).state = .sleeping <;> simp [hs]
    have hsame : ((K.kill q).proc p).state = .running ∧ ((K.kill q).proc p).chan = none := by
      by_cases hpq : p = q
      · subst hpq
        simp [Kernel.kill, hrun, hchan]
      · simp [Kernel.kill, hpq, hrun, hchan]
    exact hw.setTask hsame.1 hsame.2
  | setkilled =>
    have hw : (K.setProc p { K.proc p with killed := true }).Waits :=
      h.setProc (mild_setkilled K p) (by simp [hrun]) (.inl rfl)
    exact hw.setTask (by simp [hrun]) (by simp [hchan])

theorem alters_ticks {x : BitVec 32} (ht : Chan.ticks ∈ W) :
    Alters p W K { K with ticks := x } where
  proc := rfl
  cpu := rfl
  initproc := rfl
  task := rfl
  stuck c t hc hp hs := by
    cases c with
    | proc q => exact absurd rfl (hp q)
    | ticks => exact absurd ht hc
    | _ => exact hs
  pipe := id
  commit := id
  inCommit _ _ := rfl

theorem clockintr_touches (K : Kernel) (p : ProcId) : Touches p {.ticks} K K.clockintr :=
  Alters.wakeup (alters_ticks rfl)

theorem consoleintr_touches (K : Kernel) (p : ProcId) (ch : UInt8) :
    ∃ W, Touches p W K (K.consoleintr ch) := by
  unfold consoleintr
  split
  · exact ⟨_, Alters.wakeup (alters_cons fun hc => absurd rfl hc)⟩
  · rename_i hw
    obtain ⟨hr, hw'⟩ := Cons.intr_rw ch (by simpa using hw)
    exact ⟨∅, Alters.touches (alters_cons fun _ hs => by rw [hr, hw', hs])⟩

theorem Waits.step (h : K.Waits) (hl : K.Life) (hs : Step K l K') : K'.Waits := by
  cases hs with
  | dispatch p hc hr =>
    have m : Mild K (K.setProc p { K.proc p with state := .running }) :=
      mild_setProc rfl rfl rfl (.inr ⟨.inr (.inl hr), .inr (.inr rfl)⟩)
    exact (h.setProc m (by simp) (.inl rfl)).withCpu (some p)
  | yield p hc =>
    have m : Mild K (K.setProc p { K.proc p with state := .runnable }) :=
      mild_setProc rfl rfl rfl (.inr ⟨.inr (.inr ((hl.sched p).2 hc)), .inr (.inl rfl)⟩)
    exact (h.setProc m (by simp) (.inl rfl)).withCpu none
  | call p t hc hu ht =>
    have hchan : (K.proc p).chan = none := by
      cases hch : (K.proc p).chan with
      | none => rfl
      | some c =>
        have hs := h.chan p c hch
        simp [hu, Task.sleepsOn] at hs
    exact h.setTask ((hl.sched p).2 hc) hchan
  | turn p env r _ hc ht =>
    have hw := h.resume ((hl.sched p).2 hc)
    exact hw.turned (hl.resume p) hc (by simp [Kernel.resume]) (hl.turn ht)
  | clockintr => exact h.touches hl.sched (clockintr_touches K K.initproc)
  | consoleintr ch =>
    obtain ⟨W, hT⟩ := consoleintr_touches K K.initproc ch
    exact h.touches hl.sched hT

theorem waits_boot : boot.Waits where
  chan p ch hp := by
    simp only [boot] at hp
    split at hp <;> cases hp
  dead _ _ := rfl
  sleeping p hp := by
    simp only [boot] at hp
    split at hp <;> cases hp

theorem Run.waits {ls : List Label} (h : Run boot ls K) : K.Waits :=
  (h.invariant (I := fun K => K.Life ∧ K.Waits) ⟨life_boot, waits_boot⟩
    fun _ _ _ hK hs => ⟨hK.1.step hs, hK.2.step hK.1 hs⟩).2

/-- No process sleeps past its condition: for each channel, what a process that sleeps on it waits
for has not happened, and no process is killed that sleeps in a loop that looks at `killed`. -/
theorem no_lost_wakeup {ls : List Label} (h : Run boot ls K) (p : ProcId)
    (hp : (K.proc p).state = .sleeping) :
    (∃ ch, (K.proc p).chan = some ch) ∧
    (∀ j, (K.proc p).chan = some (.sleeplock j) → (K.lock j).locked = true) ∧
    ((K.proc p).chan = some .log → K.log.committing = true ∨
      (K.log.n : ℤ) + (K.log.outstanding + 1) * 10 > 30) ∧
    (∀ pi, (K.proc p).chan = some (.nread pi) → (K.pipe pi).Empty ∧
      (K.pipe pi).writeopen = true ∧ (K.proc p).killed = false) ∧
    (∀ pi, (K.proc p).chan = some (.nwrite pi) → (K.pipe pi).Full ∧
      (K.pipe pi).readopen = true ∧ (K.proc p).killed = false) ∧
    (∀ q, (K.proc p).chan = some (.proc q) → q = p ∧ (∃ c, (K.proc c).parent = some p) ∧
      (∀ c, (K.proc c).parent = some p → (K.proc c).state ≠ .zombie) ∧
      (K.proc p).killed = false) ∧
    ((K.proc p).chan = some .cons → K.cons.r = K.cons.w ∧ (K.proc p).killed = false) ∧
    ((K.proc p).chan = some .ticks → ∃ n ticks0, K.task p = .pauseLoop n ticks0 ∧
      (K.ticks - ticks0).toNat < n.toNat ∧ (K.proc p).killed = false) := by
  have hw : K.Waits := h.waits
  obtain ⟨ch, hch, hs, hk⟩ := hw.sleeping p hp
  have hon := hw.chan p ch hch
  -- the loop is the one that sleeps on the channel
  have hkill : ch ≠ .log → (∀ j, ch ≠ .sleeplock j) → (K.proc p).killed = false := by
    intro h₁ h₂
    apply hk
    revert hon
    cases K.task p <;> simp [Task.sleepsOn, Task.Killable] <;> grind
  rw [hch]
  refine ⟨⟨ch, rfl⟩, ?_, ?_, ?_, ?_, ?_, ?_, ?_⟩
  · rintro j he
    cases he
    exact hs
  · rintro he
    cases he
    exact hs
  · rintro pi he
    cases he
    exact ⟨hs.1, hs.2, hkill (by simp) (by simp)⟩
  · rintro pi he
    cases he
    exact ⟨hs.1, hs.2, hkill (by simp) (by simp)⟩
  · rintro q he
    cases he
    obtain rfl : q = p := Task.eq_of_sleepsOn_proc hon
    exact ⟨rfl, hs.1, hs.2, hkill (by simp) (by simp)⟩
  · rintro he
    cases he
    exact ⟨hs, hkill (by simp) (by simp)⟩
  · rintro he
    cases he
    have hkill' := hkill (by simp) (by simp)
    revert hs hon
    cases K.task p with
    | pauseLoop n ticks0 => exact fun hs _ => ⟨n, ticks0, rfl, hs, hkill'⟩
    | _ => exact fun hs _ => hs.elim

/-- Init makes a pipe and reads from it. -/
def readEmptyPipe (env : Env) : List Move :=
  [.dispatch 0, .call (.pipealloc 0), .turn env, .call (.piperead 0 1), .turn env]

/-- The theorem at a state where a process sleeps on a pipe. -/
theorem no_lost_wakeup_pipe : ∃ ls K, Run boot ls K ∧ (K.proc 0).state = .sleeping ∧
    (K.proc 0).chan = some (.nread 0) ∧ (K.pipe 0).Empty ∧ (K.pipe 0).writeopen = true := by
  obtain ⟨ls, K, hrun, hK⟩ := exists_run
    (P := fun K => (K.proc 0).state = .sleeping ∧ (K.proc 0).chan = some (.nread 0))
    (show (moves (readEmptyPipe ⟨fun _ => none, fun _ => true, fun _ => true, fun _ => 0⟩)
      boot).any _ = true by decide +kernel)
  obtain ⟨hs, hc⟩ := of_decide_eq_true hK
  have hpipe := (no_lost_wakeup hrun 0 hs).2.2.2.1 0 hc
  exact ⟨ls, K, hrun, hs, hc, hpipe.1, hpipe.2.1⟩

end Kernel

end Xv6
