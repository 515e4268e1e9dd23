import Xv6.Proc.Turn

/-!
# The life of a process

Whatever the processes do, and in whatever order, the process table keeps the invariant `Life`: the
one running process is the CPU's, every process that can be scheduled or waited for has a parent
that can still call `wait`, and a slot that `kfork` has in hand belongs to one caller.
-/

namespace Xv6

/-- The states of a process that has started and not exited. -/
def ProcState.Alive (s : ProcState) : Prop := s = .sleeping ∨ s = .runnable ∨ s = .running

instance (s : ProcState) : Decidable s.Alive := inferInstanceAs (Decidable (_ ∨ _ ∨ _))

/-- The new process that `kfork` has in hand. -/
def Task.newborn : Task → Option ProcId
  | .forkParent np _ | .forkRunnable np _ => some np
  | _ => none

theorem Task.Plain.newborn {t : Task} (h : t.Plain) : t.newborn = none := by
  cases t <;> first | rfl | exact h.elim

theorem Task.newborn_of_sleepsOn {t : Task} {p : ProcId} {ch : Chan}
    (h : t.sleepsOn p = some ch) : t.newborn = none := by
  cases t <;> first | rfl | cases h

namespace Kernel

/-- What holds of the process table in every run. -/
structure Life (K : Kernel) : Prop where
  sched : ∀ p, (K.proc p).state = .running ↔ K.cpu = some p
  init : (K.proc K.initproc).state.Alive
  parent : ∀ q p, (K.proc q).parent = some p → (K.proc p).state.Alive
  child : ∀ q, q ≠ K.initproc → (K.proc q).state.Alive ∨ (K.proc q).state = .zombie →
    (K.proc q).parent ≠ none
  unused : ∀ q, (K.proc q).state = .unused → (K.proc q).pid = 0 ∧ (K.proc q).parent = none
  newborn : ∀ p np, (K.task p).newborn = some np → (K.proc np).state = .used
  distinct : ∀ p q np, (K.task p).newborn = some np → (K.task q).newborn = some np → p = q
  orphan : ∀ p np pid, K.task p = .forkParent np pid → (K.proc np).parent = none
  adopted : ∀ p np pid, K.task p = .forkRunnable np pid → (K.proc np).parent = some p
  commit : K.CommitOk
  committer : ∀ p, K.task p = .clearLog ∨ K.task p = .endCommit → K.inCommit p = true

/-- A step that moves processes between the states in which they are alive, and nothing else in the
table. -/
structure Mild (K K' : Kernel) : Prop where
  initproc : K'.initproc = K.initproc
  parent : ∀ q, (K'.proc q).parent = (K.proc q).parent
  pid : ∀ q, (K'.proc q).pid = (K.proc q).pid
  xstate : ∀ q, (K'.proc q).xstate = (K.proc q).xstate
  state : ∀ q, (K'.proc q).state = (K.proc q).state ∨
    (K.proc q).state.Alive ∧ (K'.proc q).state.Alive
  newborn : ∀ p, (K'.task p).newborn ≠ none → K'.task p = K.task p

variable {K K' : Kernel} {env : Env} {p q : ProcId} {t : Task} {r : Ret} {l : Label}

namespace Mild

theorem alive (m : Mild K K') (h : (K.proc q).state.Alive) : (K'.proc q).state.Alive := by
  rcases m.state q with hq | hq
  · rwa [hq]
  · exact hq.2

/-- The states in which a process is not alive stay as they are, both ways. -/
theorem state_iff (m : Mild K K') {s : ProcState} (hs : ¬ s.Alive) :
    (K'.proc q).state = s ↔ (K.proc q).state = s := by
  rcases m.state q with hq | ⟨h₁, h₂⟩
  · rw [hq]
  · exact ⟨fun h => absurd (h ▸ h₂) hs, fun h => absurd (h ▸ h₁) hs⟩

theorem life (m : Mild K K') (h : K.Life)
    (hsched : ∀ p, (K'.proc p).state = .running ↔ K'.cpu = some p) (hc : K'.CommitOk)
    (hi : ∀ p, K'.task p = .clearLog ∨ K'.task p = .endCommit → K'.inCommit p = true) :
    K'.Life where
  sched := hsched
  init := by
    rw [m.initproc]
    exact m.alive h.init
  parent q p hq := m.alive (h.parent q p ((m.parent q).symm.trans hq))
  child q hq hs := by
    rw [m.initproc] at hq
    rw [m.parent]
    refine h.child q hq (hs.imp (fun ha => ?_) (m.state_iff (by decide)).1)
    rcases m.state q with he | he
    · rwa [← he]
    · exact he.1
  unused q hq := by
    rw [m.pid, m.parent]
    exact h.unused q ((m.state_iff (by decide)).1 hq)
  newborn p np hp := by
    rw [m.newborn p (by simp [hp])] at hp
    exact (m.state_iff (by decide)).2 (h.newborn p np hp)
  distinct p q np hp hq := by
    rw [m.newborn p (by simp [hp])] at hp
    rw [m.newborn q (by simp [hq])] at hq
    exact h.distinct p q np hp hq
  orphan p np pid hp := by
    rw [m.newborn p (by simp [hp, Task.newborn])] at hp
    rw [m.parent]
    exact h.orphan p np pid hp
  adopted p np pid hp := by
    rw [m.newborn p (by simp [hp, Task.newborn])] at hp
    rw [m.parent]
    exact h.adopted p np pid hp
  commit := hc
  committer := hi

theorem trans {K'' : Kernel} (m : Mild K K') (m' : Mild K' K'') : Mild K K'' where
  initproc := m'.initproc.trans m.initproc
  parent q := (m'.parent q).trans (m.parent q)
  pid q := (m'.pid q).trans (m.pid q)
  xstate q := (m'.xstate q).trans (m.xstate q)
  state q := by
    rcases m'.state q with h' | ⟨h₁, h₂⟩
    · rw [h']
      exact m.state q
    · rcases m.state q with h | ⟨h₃, -⟩
      · exact .inr ⟨h ▸ h₁, h₂⟩
      · exact .inr ⟨h₃, h₂⟩
  newborn p hp := by
    have h := m'.newborn p hp
    exact h.trans (m.newborn p (h ▸ hp))

end Mild

/-! ## Mild steps -/

/-- Replacing the fields of a process that have to do with scheduling. -/
theorem mild_setProc {x : Proc} (hpar : x.parent = (K.proc p).parent)
    (hpid : x.pid = (K.proc p).pid) (hx : x.xstate = (K.proc p).xstate)
    (hs : x.state = (K.proc p).state ∨ (K.proc p).state.Alive ∧ x.state.Alive) :
    Mild K (K.setProc p x) where
  initproc := rfl
  parent q := by
    by_cases h : q = p
    · simp [h, hpar]
    · simp [h]
  pid q := by
    by_cases h : q = p
    · simp [h, hpid]
    · simp [h]
  xstate q := by
    by_cases h : q = p
    · simp [h, hx]
    · simp [h]
  state q := by
    by_cases h : q = p
    · simpa [h] using hs
    · simp [h]
  newborn _ _ := rfl

theorem mild_setTask (ht : t.newborn = none) : Mild K (K.setTask p t) where
  initproc := rfl
  parent _ := rfl
  pid _ := rfl
  xstate _ := rfl
  state _ := .inl rfl
  newborn q hq := by
    by_cases h : q = p
    · simp [h, ht] at hq
    · simp [h]

/-- Processes that are woken at most. -/
theorem mild_of_proc (hinit : K'.initproc = K.initproc) (htask : K'.task = K.task)
    (hproc : ∀ q, K'.proc q = K.proc q ∨
      (K.proc q).state = .sleeping ∧ K'.proc q = { K.proc q with state := .runnable }) :
    Mild K K' where
  initproc := hinit
  parent q := by rcases hproc q with h | ⟨-, h⟩ <;> rw [h]
  pid q := by rcases hproc q with h | ⟨-, h⟩ <;> rw [h]
  xstate q := by rcases hproc q with h | ⟨-, h⟩ <;> rw [h]
  state q := by
    rcases hproc q with h | ⟨hs, h⟩
    · exact .inl (by rw [h])
    · exact .inr ⟨.inl hs, by rw [h]; exact .inr (.inl rfl)⟩
  newborn p _ := by rw [htask]

/-- Waking processes does not start them. -/
theorem sched_of_proc (hcpu : K'.cpu = K.cpu)
    (hproc : ∀ q, K'.proc q = K.proc q ∨
      (K.proc q).state = .sleeping ∧ K'.proc q = { K.proc q with state := .runnable })
    (h : ∀ p, (K.proc p).state = .running ↔ K.cpu = some p) (q : ProcId) :
    (K'.proc q).state = .running ↔ K'.cpu = some q := by
  rw [hcpu]
  rcases hproc q with hq | ⟨hs, hq⟩
  · rw [hq]
    exact h q
  · rw [hq, ← h q]
    simp [hs]

theorem Touches.mild {W : Set Chan} (h : Touches p W K K') : Mild K K' :=
  mild_of_proc h.initproc h.task h.proc

/-- A process that leaves the CPU in a state other than `RUNNING`. -/
theorem sched_leave {x : Proc} (hx : x.state ≠ .running) (hcpu : K.cpu = some p)
    (h : ∀ p, (K.proc p).state = .running ↔ K.cpu = some p) (q : ProcId) :
    ((K.setProc p x).proc q).state = .running ↔ (none : Option ProcId) = some q := by
  by_cases hq : q = p
  · simp [hq, hx]
  · have hne : K.cpu ≠ some q := by
      rw [hcpu]
      exact fun he => hq (Option.some.inj he).symm
    simpa [hq] using (h q).not.2 hne

/-- The CPU's process stays there. -/
theorem sched_stay {x : Proc} (hx : x.state = (K.proc p).state)
    (h : ∀ p, (K.proc p).state = .running ↔ K.cpu = some p) (q : ProcId) :
    ((K.setProc p x).proc q).state = .running ↔ K.cpu = some q := by
  by_cases hq : q = p
  · simpa [hq, hx] using h p
  · simpa [hq] using h q

theorem mild_resume (K : Kernel) (p : ProcId) : Mild K (K.resume p) :=
  mild_setProc rfl rfl rfl (.inl rfl)

theorem Life.resume (h : K.Life) (p : ProcId) : (K.resume p).Life :=
  (mild_resume K p).life h (sched_stay rfl h.sched) h.commit h.committer

/-- Who is on the CPU is not part of the table. -/
theorem Mild.withCpu (m : Mild K K') (c : Option ProcId) : Mild K { K' with cpu := c } :=
  ⟨m.initproc, m.parent, m.pid, m.xstate, m.state, m.newborn⟩

theorem mild_dispatch (hs : (K.proc p).state = .runnable) : Mild K (K.dispatch p) := by
  have m : Mild K (K.setProc p { K.proc p with state := .running }) :=
    mild_setProc rfl rfl rfl (.inr ⟨.inr (.inl hs), .inr (.inr rfl)⟩)
  exact m.withCpu (some p)

theorem mild_yield (hs : (K.proc p).state = .running) : Mild K (K.yield p) := by
  have m : Mild K (K.setProc p { K.proc p with state := .runnable }) :=
    mild_setProc rfl rfl rfl (.inr ⟨.inr (.inr hs), .inr (.inl rfl)⟩)
  exact m.withCpu none

theorem Life.dispatch (h : K.Life) (hc : K.cpu = none) (hs : (K.proc p).state = .runnable) :
    (K.dispatch p).Life := by
  refine (mild_dispatch hs).life h (fun q => ?_) h.commit h.committer
  by_cases hq : q = p
  · simp [Kernel.dispatch, hq]
  · have hne : (K.proc q).state ≠ .running := fun hr => by simp [(h.sched q).1 hr] at hc
    simp [Kernel.dispatch, hq, hne, Ne.symm hq]

theorem Life.yield (h : K.Life) (hc : K.cpu = some p) : (K.yield p).Life :=
  (mild_yield ((h.sched p).2 hc)).life h (sched_leave (by simp) hc h.sched) h.commit h.committer

/-- A process that calls a function has no new process in hand. -/
theorem newborn_of_entry (h : K.entry p t = true) : t.newborn = none := by
  cases t <;> first | rfl | cases h

theorem Life.call (h : K.Life) (ht : K.entry p t = true) : (K.setTask p t).Life := by
  refine (mild_setTask (newborn_of_entry ht)).life h h.sched h.commit fun q hq => ?_
  by_cases hqp : q = p
  · subst hqp
    simp only [setTask_task, if_true] at hq
    rcases hq with rfl | rfl <;> exact ht
  · exact h.committer q (by simpa [hqp] using hq)

theorem clockintr_proc (K : Kernel) (q : ProcId) : K.clockintr.proc q = K.proc q ∨
    (K.proc q).state = .sleeping ∧ K.clockintr.proc q = { K.proc q with state := .runnable } :=
  wakeup_proc _ _ q

theorem consoleintr_proc (K : Kernel) (ch : UInt8) (q : ProcId) :
    (K.consoleintr ch).proc q = K.proc q ∨ (K.proc q).state = .sleeping ∧
      (K.consoleintr ch).proc q = { K.proc q with state := .runnable } := by
  unfold Kernel.consoleintr
  split
  · exact wakeup_proc _ _ q
  · exact .inl rfl

theorem mild_clockintr (K : Kernel) : Mild K K.clockintr :=
  mild_of_proc rfl rfl (clockintr_proc K)

theorem Life.clockintr (h : K.Life) : K.clockintr.Life :=
  (mild_clockintr K).life h (sched_of_proc (K := K) rfl (clockintr_proc K) h.sched) h.commit
    h.committer

theorem consoleintr_same (K : Kernel) (ch : UInt8) : (K.consoleintr ch).cpu = K.cpu ∧
    (K.consoleintr ch).initproc = K.initproc ∧ (K.consoleintr ch).task = K.task ∧
    (K.consoleintr ch).log = K.log ∧ (K.consoleintr ch).inCommit = K.inCommit := by
  unfold Kernel.consoleintr
  split <;> exact ⟨rfl, rfl, rfl, rfl, rfl⟩

theorem mild_consoleintr (K : Kernel) (ch : UInt8) : Mild K (K.consoleintr ch) :=
  mild_of_proc (consoleintr_same K ch).2.1 (consoleintr_same K ch).2.2.1 (consoleintr_proc K ch)

theorem Life.consoleintr (h : K.Life) (ch : UInt8) : (K.consoleintr ch).Life := by
  obtain ⟨hcpu, -, htask, hlog, hin⟩ := consoleintr_same K ch
  refine (mild_consoleintr K ch).life h
    (sched_of_proc hcpu (consoleintr_proc K ch) h.sched) ?_ ?_
  · have hc := h.commit
    rwa [CommitOk, hlog, hin]
  · have hc := h.committer
    rwa [htask, hin]

/-! ## Turns -/

/-- Where a turn leaves a process that goes on is no step of a commit. -/
theorem committer_setTask {W : Set Chan} {K₁ : Kernel} (h : K.Life) (ht : Touches p W K K₁)
    (hne : t ≠ .clearLog ∧ t ≠ .endCommit) (q : ProcId)
    (hq : (if q = p then t else K₁.task q) = .clearLog ∨
      (if q = p then t else K₁.task q) = .endCommit) : K₁.inCommit q = true := by
  by_cases hqp : q = p
  · simp only [hqp, if_true] at hq
    exact (hq.elim hne.1 hne.2).elim
  · simp only [hqp, if_false, ht.task] at hq
    rw [ht.inCommit q hqp]
    exact h.committer q hq

theorem Touches.mild_goes {W : Set Chan} {K₁ : Kernel} (ht : Touches p W K K₁) (hp : t.Plain) :
    Mild K (K₁.setTask p t) :=
  ht.mild.trans (mild_setTask hp.newborn)

/-- A running process is as it was after it has touched objects. -/
theorem Touches.proc_eq {W : Set Chan} {K₁ : Kernel} (ht : Touches p W K K₁)
    (hrun : (K.proc p).state = .running) : K₁.proc p = K.proc p := by
  rcases ht.proc p with h | ⟨hs, -⟩
  · exact h
  · simp [hrun] at hs

theorem Touches.running {W : Set Chan} {K₁ : Kernel} (ht : Touches p W K K₁)
    (hrun : (K.proc p).state = .running) : (K₁.proc p).state = .running := by
  rw [ht.proc_eq hrun, hrun]

theorem Touches.mild_blocks {W : Set Chan} {K₁ : Kernel} {ch : Chan} (ht : Touches p W K K₁)
    (hrun : (K.proc p).state = .running) (hch : t.sleepsOn p = some ch) :
    Mild K (K₁.sleep p ch t) := by
  have m₁ : Mild K₁ (K₁.setProc p { K₁.proc p with state := .sleeping, chan := some ch }) :=
    mild_setProc rfl rfl rfl (.inr ⟨.inr (.inr (ht.running hrun)), .inl rfl⟩)
  have m₂ := (ht.mild.trans m₁).trans (mild_setTask (p := p) (Task.newborn_of_sleepsOn hch))
  exact m₂.withCpu none

theorem Life.goes {W : Set Chan} {K₁ : Kernel} (h : K.Life) (ht : Touches p W K K₁)
    (hp : t.Plain) : (K₁.setTask p t).Life := by
  refine (ht.mild_goes hp).life h (sched_of_proc ht.cpu ht.proc h.sched) (ht.commit h.commit)
    (committer_setTask h ht ?_)
  constructor <;> rintro rfl <;> exact hp

theorem Life.blocks {W : Set Chan} {K₁ : Kernel} {ch : Chan} (h : K.Life)
    (hcpu : K.cpu = some p) (ht : Touches p W K K₁) (hch : t.sleepsOn p = some ch) :
    (K₁.sleep p ch t).Life := by
  have hcpu₁ : K₁.cpu = some p := ht.cpu.trans hcpu
  have hsched := sched_of_proc ht.cpu ht.proc h.sched
  have hne : t ≠ .clearLog ∧ t ≠ .endCommit := by
    constructor <;> rintro rfl <;> cases hch
  exact (ht.mild_blocks ((h.sched p).2 hcpu) hch).life h (sched_leave (by simp) hcpu₁ hsched)
    (ht.commit h.commit) fun q hq => committer_setTask h ht hne q hq

/-- No slot that is unused or a zombie has children. -/
theorem Life.childless (h : K.Life) (hp : ¬ (K.proc p).state.Alive) (q : ProcId) :
    (K.proc q).parent ≠ some p :=
  fun hq => hp (h.parent q p hq)

/-- A process with a slot in hand is not the slot. -/
theorem Life.ne_of_used (h : K.Life) (hcpu : K.cpu = some p) {np : ProcId}
    (hn : (K.proc np).state ≠ .running) : np ≠ p :=
  fun he => hn (he ▸ (h.sched p).2 hcpu)

theorem Life.take (h : K.Life) (hcpu : K.cpu = some p) {np : ProcId}
    (hu : (K.proc np).state = .unused) (pid : BitVec 32) :
    (((K.takeSlot np).setTask np .user).setTask p (.forkParent np pid)).Life := by
  have hnp : np ≠ p := h.ne_of_used hcpu (by simp [hu])
  have hinit : K.initproc ≠ np := fun he => by
    have ha := h.init
    rw [he, hu] at ha
    revert ha
    decide
  -- the tasks with a new process in hand are the old ones and the new one
  have hnew : ∀ q n, ((((K.takeSlot np).setTask np .user).setTask p (.forkParent np pid)).task
      q).newborn = some n → q = p ∧ n = np ∨ q ≠ p ∧ q ≠ np ∧ (K.task q).newborn = some n := by
    intro q n hq
    by_cases hqp : q = p
    · exact .inl ⟨hqp, by simpa [hqp, Task.newborn, eq_comm] using hq⟩
    · by_cases hqn : q = np
      · simp [hqn, hnp, Task.newborn] at hq
      · exact .inr ⟨hqp, hqn, by simpa [hqp, hqn, takeSlot] using hq⟩
  have hold : ∀ q, (K.task q).newborn ≠ some np := fun q hq => by
    have := h.newborn q np hq
    simp [hu] at this
  refine ⟨fun q => ?_, ?_, fun q r hq => ?_, fun q hq hs => ?_, fun q hq => ?_, fun q n hq => ?_,
    fun a b n ha hb => ?_, fun q n x hq => ?_, fun q n x hq => ?_, h.commit, fun q hq => ?_⟩
  · by_cases hqn : q = np
    · have hne : K.cpu ≠ some np := by
        rw [hcpu]
        exact fun he => hnp (Option.some.inj he).symm
      simpa [takeSlot, hqn] using hne
    · simpa [takeSlot, hqn] using h.sched q
  · simpa [takeSlot, hinit] using h.init
  · have hpar : (K.proc q).parent = some r := by
      by_cases hqn : q = np
      · simpa [takeSlot, hqn] using hq
      · simpa [takeSlot, hqn] using hq
    have hr : r ≠ np := fun he => h.childless (p := np) (by simp [hu, ProcState.Alive]) q (he ▸ hpar)
    simpa [takeSlot, hr] using h.parent q r hpar
  · by_cases hqn : q = np
    · simp [takeSlot, hqn, ProcState.Alive] at hs
    · simp only [takeSlot, setTask_proc, setProc_proc, hqn, if_false] at hs ⊢
      exact h.child q hq hs
  · by_cases hqn : q = np
    · simp [takeSlot, hqn] at hq
    · simp only [takeSlot, setTask_proc, setProc_proc, hqn, if_false] at hq ⊢
      exact h.unused q hq
  · rcases hnew q n hq with ⟨-, rfl⟩ | ⟨-, -, hq'⟩
    · simp [takeSlot]
    · have hn : n ≠ np := fun he => hold q (he ▸ hq')
      simpa [takeSlot, hn] using h.newborn q n hq'
  · rcases hnew a n ha with ⟨rfl, rfl⟩ | ⟨-, -, ha'⟩ <;> rcases hnew b n hb with ⟨rfl, hbn⟩ | ⟨-, -, hb'⟩
    · rfl
    · exact absurd hb' (hold b)
    · exact absurd (hbn ▸ ha') (hold a)
    · exact h.distinct a b n ha' hb'
  · rcases hnew q n (by rw [hq]; rfl) with ⟨-, rfl⟩ | ⟨hqp, hqn, hq'⟩
    · simpa [takeSlot] using (h.unused n hu).2
    · have hn : n ≠ np := fun he => hold q (he ▸ hq')
      simpa [takeSlot, hn] using h.orphan q n x (by simpa [hqp, hqn, takeSlot] using hq)
  · by_cases hqp : q = p
    · simp [hqp] at hq
    · by_cases hqn : q = np
      · simp [hqn, hnp] at hq
      · have hq' : K.task q = .forkRunnable n x := by simpa [hqp, hqn, takeSlot] using hq
        have hn : n ≠ np := fun he => hold q (by rw [hq', he]; rfl)
        simpa [takeSlot, hn] using h.adopted q n x hq'
  · by_cases hqp : q = p
    · simp [hqp] at hq
    · by_cases hqn : q = np
      · simp [hqn, hnp] at hq
      · exact h.committer q (by simpa [hqp, hqn, takeSlot] using hq)

/-- The record `freeproc` leaves. -/
theorem freeproc_proc (K : Kernel) (p q : ProcId) :
    (K.freeproc p).proc q = if q = p then ⟨.unused, none, false, 0, 0, none⟩ else K.proc q := rfl

/-- The tasks of the other processes, when `p` is done with a function. -/
theorem task_ne_of_setTask {K₁ : Kernel} {c : ProcId} (htask : K₁.task = K.task) (ht : t ≠ .user)
    (h : (K₁.setTask p .user).task c = t) : c ≠ p ∧ K.task c = t := by
  by_cases hc : c = p
  · simp [hc, Ne.symm ht] at h
  · exact ⟨hc, by simpa [hc, htask] using h⟩

theorem newborn_of_setTask {K₁ : Kernel} {c n : ProcId} (htask : K₁.task = K.task)
    (h : ((K₁.setTask p .user).task c).newborn = some n) :
    c ≠ p ∧ (K.task c).newborn = some n := by
  have ht : (K₁.setTask p .user).task c ≠ .user := fun he => by
    rw [he] at h
    cases h
  obtain ⟨hc, he⟩ := task_ne_of_setTask htask ht rfl
  exact ⟨hc, he ▸ h⟩

/-- Freeing a slot that no process runs in and no `kfork` has in hand. -/
theorem Life.free {K₁ : Kernel} (h : K.Life) (hq : ¬ (K.proc q).state.Alive)
    (hu : (K.proc q).state ≠ .used)
    (hproc : ∀ c, K₁.proc c = if c = q then ⟨.unused, none, false, 0, 0, none⟩ else K.proc c)
    (hcpu : K₁.cpu = K.cpu) (hinit : K₁.initproc = K.initproc) (htask : K₁.task = K.task)
    (hlog : K₁.log = K.log) (hin : K₁.inCommit = K.inCommit) : (K₁.setTask p .user).Life := by
  have hne : ∀ c, c ≠ q → K₁.proc c = K.proc c := fun c hc => by rw [hproc, if_neg hc]
  have heq : K₁.proc q = ⟨.unused, none, false, 0, 0, none⟩ := by rw [hproc, if_pos rfl]
  have hiq : K.initproc ≠ q := fun he => hq (he ▸ h.init)
  have hnew : ∀ c n, (K.task c).newborn = some n → n ≠ q :=
    fun c n hc he => hu (he ▸ h.newborn c n hc)
  refine ⟨fun c => ?_, ?_, fun c r hc => ?_, fun c hc hs => ?_, fun c hc => ?_, fun c n hc => ?_,
    fun a b n ha hb => ?_, fun c n x hc => ?_, fun c n x hc => ?_, ?_, fun c hc => ?_⟩
  · simp only [setTask_proc, setTask_cpu, hcpu]
    by_cases hcq : c = q
    · have hnr : K.cpu ≠ some q := fun he => hq (.inr (.inr ((h.sched q).2 he)))
      simpa [hcq, heq] using hnr
    · rw [hne c hcq]
      exact h.sched c
  · simp only [setTask_proc, setTask_initproc, hinit, hne _ hiq]
    exact h.init
  · simp only [setTask_proc] at hc ⊢
    by_cases hcq : c = q
    · simp [hcq, heq] at hc
    · rw [hne c hcq] at hc
      have hr : r ≠ q := fun he => h.childless hq c (he ▸ hc)
      rw [hne r hr]
      exact h.parent c r hc
  · simp only [setTask_proc, setTask_initproc, hinit] at hc hs ⊢
    by_cases hcq : c = q
    · simp [hcq, heq, ProcState.Alive] at hs
    · rw [hne c hcq] at hs ⊢
      exact h.child c hc hs
  · simp only [setTask_proc] at hc ⊢
    by_cases hcq : c = q
    · simp [hcq, heq]
    · rw [hne c hcq] at hc ⊢
      exact h.unused c hc
  · obtain ⟨-, hc'⟩ := newborn_of_setTask htask hc
    simp only [setTask_proc, hne n (hnew c n hc')]
    exact h.newborn c n hc'
  · exact h.distinct a b n (newborn_of_setTask htask ha).2 (newborn_of_setTask htask hb).2
  · obtain ⟨-, hc'⟩ := task_ne_of_setTask htask (by simp) hc
    simp only [setTask_proc, hne n (hnew c n (by rw [hc']; rfl))]
    exact h.orphan c n x hc'
  · obtain ⟨-, hc'⟩ := task_ne_of_setTask htask (by simp) hc
    simp only [setTask_proc, hne n (hnew c n (by rw [hc']; rfl))]
    exact h.adopted c n x hc'
  · have hc := h.commit
    rw [CommitOk, ← hlog, ← hin] at hc
    exact hc
  · have hc' : K.task c = .clearLog ∨ K.task c = .endCommit :=
      hc.imp (fun hc => (task_ne_of_setTask htask (by simp) hc).2)
        fun hc => (task_ne_of_setTask htask (by simp) hc).2
    change K₁.inCommit c = true
    rw [hin]
    exact h.committer c hc'

theorem Life.drop (h : K.Life) {np : ProcId} (hu : (K.proc np).state = .unused) :
    (((K.takeSlot np).freeproc np).setTask p .user).Life := by
  refine h.free (q := np) (by simp [hu, ProcState.Alive]) (by simp [hu]) (fun c => ?_)
    rfl rfl rfl rfl rfl
  rw [freeproc_proc]
  by_cases hc : c = np
  · simp [hc]
  · simp [takeSlot, hc]

theorem Life.reap (h : K.Life) (hq : K.zombieChild p = some q) :
    ((K.freeproc q).setTask p .user).Life := by
  have hz := (zombieChild_eq_some hq).2
  exact h.free (by simp [hz, ProcState.Alive]) (by simp [hz]) (freeproc_proc K q)
    rfl rfl rfl rfl rfl

theorem Life.setParent (h : K.Life) (hcpu : K.cpu = some p) {np : ProcId} {pid : BitVec 32}
    (ht : K.task p = .forkParent np pid) :
    ((K.setProc np { K.proc np with parent := some p }).setTask p (.forkRunnable np pid)).Life := by
  have hused : (K.proc np).state = .used := h.newborn p np (by rw [ht]; rfl)
  have hstate : ∀ c, ((K.setProc np { K.proc np with parent := some p }).proc c).state =
      (K.proc c).state := by
    intro c
    by_cases hc : c = np <;> simp [hc]
  have hpid : ∀ c, ((K.setProc np { K.proc np with parent := some p }).proc c).pid =
      (K.proc c).pid := by
    intro c
    by_cases hc : c = np <;> simp [hc]
  have hne : ∀ c, c ≠ np → (K.setProc np { K.proc np with parent := some p }).proc c = K.proc c :=
    fun c hc => by simp [hc]
  -- the slots in hand are the same, each in the same hand
  have hnew : ∀ c, (((K.setProc np { K.proc np with parent := some p }).setTask p
      (.forkRunnable np pid)).task c).newborn = (K.task c).newborn := by
    intro c
    by_cases hc : c = p
    · simp [hc, ht, Task.newborn]
    · simp [hc]
  have hother : ∀ c n, c ≠ p → (K.task c).newborn = some n → n ≠ np := by
    rintro c n hc hn rfl
    exact hc (h.distinct c p n hn (by rw [ht]; rfl))
  refine ⟨fun c => ?_, ?_, fun c r hc => ?_, fun c hc hs => ?_, fun c hc => ?_, fun c n hc => ?_,
    fun a b n ha hb => ?_, fun c n x hc => ?_, fun c n x hc => ?_, h.commit, fun c hc => ?_⟩
  · simp only [setTask_proc, hstate]
    exact h.sched c
  · simp only [setTask_proc, hstate]
    exact h.init
  · simp only [setTask_proc, hstate] at hc ⊢
    by_cases hcn : c = np
    · have hr : r = p := by simpa [hcn, eq_comm] using hc
      exact hr ▸ .inr (.inr ((h.sched p).2 hcpu))
    · rw [hne c hcn] at hc
      exact h.parent c r hc
  · simp only [setTask_proc, hstate] at hs ⊢
    by_cases hcn : c = np
    · simp [hcn]
    · rw [hne c hcn]
      exact h.child c hc hs
  · simp only [setTask_proc, hstate, hpid] at hc ⊢
    have hcn : c ≠ np := fun he => by simp [he, hused] at hc
    rw [hne c hcn]
    exact h.unused c hc
  · simp only [setTask_proc, hstate]
    exact h.newborn c n ((hnew c).symm.trans hc)
  · exact h.distinct a b n ((hnew a).symm.trans ha) ((hnew b).symm.trans hb)
  · by_cases hcp : c = p
    · simp [hcp] at hc
    · have hc' : K.task c = .forkParent n x := by simpa [hcp] using hc
      simp only [setTask_proc, hne n (hother c n hcp (by rw [hc']; rfl))]
      exact h.orphan c n x hc'
  · by_cases hcp : c = p
    · obtain ⟨rfl, -⟩ : np = n ∧ pid = x := by simpa [hcp] using hc
      simp [hcp]
    · have hc' : K.task c = .forkRunnable n x := by simpa [hcp] using hc
      simp only [setTask_proc, hne n (hother c n hcp (by rw [hc']; rfl))]
      exact h.adopted c n x hc'
  · by_cases hcp : c = p
    · simp [hcp] at hc
    · exact h.committer c (by simpa [hcp] using hc)

theorem Life.setRunnable (h : K.Life) {np : ProcId} {pid : BitVec 32}
    (ht : K.task p = .forkRunnable np pid) :
    ((K.setProc np { K.proc np with state := .runnable }).setTask p .user).Life := by
  have hused : (K.proc np).state = .used := h.newborn p np (by rw [ht]; rfl)
  have hpar : (K.proc np).parent = some p := h.adopted p np pid ht
  have hparent : ∀ c, ((K.setProc np { K.proc np with state := .runnable }).proc c).parent =
      (K.proc c).parent := by
    intro c
    by_cases hc : c = np <;> simp [hc]
  have hne : ∀ c, c ≠ np → (K.setProc np { K.proc np with state := .runnable }).proc c = K.proc c :=
    fun c hc => by simp [hc]
  have hother : ∀ c n, c ≠ p → (K.task c).newborn = some n → n ≠ np := by
    rintro c n hc hn rfl
    exact hc (h.distinct c p n hn (by rw [ht]; rfl))
  have halive : ∀ c, (K.proc c).state.Alive →
      ((K.setProc np { K.proc np with state := .runnable }).proc c).state.Alive := by
    intro c hc
    by_cases hcn : c = np
    · simp [hcn, ProcState.Alive]
    · rwa [hne c hcn]
  refine ⟨fun c => ?_, halive _ h.init, fun c r hc => ?_, fun c hc hs => ?_, fun c hc => ?_,
    fun c n hc => ?_, fun a b n ha hb => ?_, fun c n x hc => ?_, fun c n x hc => ?_, h.commit,
    fun c hc => ?_⟩
  · simp only [setTask_proc, setTask_cpu, setProc_cpu]
    by_cases hcn : c = np
    · have hnr : K.cpu ≠ some np := fun he => by simp [(h.sched np).2 he] at hused
      simpa [hcn] using hnr
    · rw [hne c hcn]
      exact h.sched c
  · simp only [setTask_proc, hparent] at hc ⊢
    exact halive r (h.parent c r hc)
  · simp only [setTask_proc, hparent] at hs ⊢
    by_cases hcn : c = np
    · simp [hcn, hpar]
    · rw [hne c hcn] at hs
      exact h.child c hc hs
  · simp only [setTask_proc] at hc ⊢
    have hcn : c ≠ np := fun he => by simp [he] at hc
    rw [hne c hcn] at hc ⊢
    exact h.unused c hc
  · obtain ⟨hcp, hc'⟩ := newborn_of_setTask rfl hc
    simp only [setTask_proc, hne n (hother c n hcp hc')]
    exact h.newborn c n hc'
  · exact h.distinct a b n (newborn_of_setTask (K := K) rfl ha).2
      (newborn_of_setTask (K := K) rfl hb).2
  · obtain ⟨-, hc'⟩ := task_ne_of_setTask rfl (by simp) hc
    simp only [setTask_proc, hparent]
    exact h.orphan c n x hc'
  · obtain ⟨-, hc'⟩ := task_ne_of_setTask rfl (by simp) hc
    simp only [setTask_proc, hparent]
    exact h.adopted c n x hc'
  · exact h.committer c (hc.imp (fun hc => (task_ne_of_setTask rfl (by simp) hc).2)
      fun hc => (task_ne_of_setTask rfl (by simp) hc).2)

/-! ## `kexit` -/

/-- The parent a process has after `reparent(p)`. -/
def heir (K : Kernel) (p q : ProcId) : Option ProcId :=
  if (K.proc q).parent = some p then some K.initproc else (K.proc q).parent

/-- The table after the calls of `reparent` and `wakeup` in `kexit`. -/
def leave (K : Kernel) (p : ProcId) : Kernel :=
  (K.reparent p).wakeup (((K.reparent p).proc p).parent.map .proc)

/-- `reparent` gives the children of `p` to init and wakes sleepers. -/
theorem reparent_proc (K : Kernel) (p q : ProcId) :
    (K.reparent p).proc q = { K.proc q with parent := K.heir p q } ∨
      (K.proc q).state = .sleeping ∧
        (K.reparent p).proc q = { K.proc q with parent := K.heir p q, state := .runnable } := by
  have hadopt : (K.adopt p).proc q = { K.proc q with parent := K.heir p q } := by
    simp only [adopt, heir]
    split <;> rfl
  unfold reparent
  split
  · rcases wakeup_proc (K.adopt p) (some (.proc K.initproc)) q with h | ⟨hs, h⟩
    · exact .inl (h.trans hadopt)
    · rw [hadopt] at hs h
      exact .inr ⟨hs, h⟩
  · rename_i hno
    have hq : (K.proc q).parent ≠ some p := fun he => hno ⟨q, he⟩
    exact .inl (by simp [heir, hq])

theorem leave_proc (K : Kernel) (p q : ProcId) :
    (K.leave p).proc q = { K.proc q with parent := K.heir p q } ∨
      (K.proc q).state = .sleeping ∧
        (K.leave p).proc q = { K.proc q with parent := K.heir p q, state := .runnable } := by
  rcases wakeup_proc (K.reparent p) (((K.reparent p).proc p).parent.map .proc) q with h | ⟨hs, h⟩
  · rcases reparent_proc K p q with h' | ⟨hs', h'⟩
    · exact .inl (h.trans h')
    · exact .inr ⟨hs', h.trans h'⟩
  · rcases reparent_proc K p q with h' | ⟨-, h'⟩
    · rw [h'] at hs h
      exact .inr ⟨hs, h⟩
    · simp [h'] at hs

theorem leave_same (K : Kernel) (p : ProcId) : (K.leave p).cpu = K.cpu ∧
    (K.leave p).initproc = K.initproc ∧ (K.leave p).task = K.task ∧ (K.leave p).log = K.log ∧
    (K.leave p).inCommit = K.inCommit := by
  unfold leave reparent
  split <;> exact ⟨rfl, rfl, rfl, rfl, rfl⟩

theorem leave_parent (K : Kernel) (p q : ProcId) : ((K.leave p).proc q).parent = K.heir p q := by
  rcases leave_proc K p q with h | ⟨-, h⟩ <;> rw [h]

theorem leave_pid (K : Kernel) (p q : ProcId) : ((K.leave p).proc q).pid = (K.proc q).pid := by
  rcases leave_proc K p q with h | ⟨-, h⟩ <;> rw [h]

theorem leave_state (K : Kernel) (p q : ProcId) :
    ((K.leave p).proc q).state = (K.proc q).state ∨
      (K.proc q).state = .sleeping ∧ ((K.leave p).proc q).state = .runnable := by
  rcases leave_proc K p q with h | ⟨hs, h⟩
  · exact .inl (by rw [h])
  · exact .inr ⟨hs, by rw [h]⟩

/-- A state other than `SLEEPING` and `RUNNABLE` stays as it is, both ways. -/
theorem leave_state_iff (K : Kernel) (p q : ProcId) {s : ProcState} (h₁ : s ≠ .sleeping)
    (h₂ : s ≠ .runnable) : ((K.leave p).proc q).state = s ↔ (K.proc q).state = s := by
  rcases leave_state K p q with h | ⟨h, h'⟩
  · rw [h]
  · rw [h, h']
    exact ⟨fun he => absurd he.symm h₂, fun he => absurd he.symm h₁⟩

theorem leave_alive (K : Kernel) (p q : ProcId) :
    ((K.leave p).proc q).state.Alive ↔ (K.proc q).state.Alive := by
  rcases leave_state K p q with h | ⟨h, h'⟩
  · rw [h]
  · simp [h, h', ProcState.Alive]

theorem exitProc_initproc (K : Kernel) (p : ProcId) (status : ℤ) :
    (K.exitProc p status).initproc = K.initproc := rfl

theorem exitProc_task (K : Kernel) (p : ProcId) (status : ℤ) :
    (K.exitProc p status).task = (K.setTask p .user).task := rfl

theorem Life.exit (h : K.Life) (hcpu : K.cpu = some p) (hp : p ≠ K.initproc) (status : ℤ) :
    ((K.leave p).exitProc p status).Life := by
  obtain ⟨-, hinit, htask, hlog, hin⟩ := leave_same K p
  have hrun : (K.proc p).state = .running := (h.sched p).2 hcpu
  have hpar : ∀ c, (((K.leave p).exitProc p status).proc c).parent = K.heir p c := by
    intro c
    by_cases hc : c = p <;> simp [exitProc, hc, leave_parent]
  have hne : ∀ c, c ≠ p → ((K.leave p).exitProc p status).proc c = (K.leave p).proc c :=
    fun c hc => by simp [exitProc, hc]
  have hz : (((K.leave p).exitProc p status).proc p).state = .zombie := by simp [exitProc]
  -- the only parent that dies has no children left
  have hheir : ∀ c r, K.heir p c = some r → r ≠ p ∧ (K.proc r).state.Alive := by
    intro c r hr
    unfold heir at hr
    split at hr
    · obtain rfl := Option.some.inj hr
      exact ⟨Ne.symm hp, h.init⟩
    · rename_i hc
      exact ⟨fun he => hc (he ▸ hr), h.parent c r hr⟩
  have hheir_ne : ∀ c, (K.proc c).parent ≠ none → K.heir p c ≠ none := by
    intro c hc
    unfold heir
    split
    · simp
    · exact hc
  have hnp : ∀ c n, (K.task c).newborn = some n → n ≠ p :=
    fun c n hc he => by simp [← he, h.newborn c n hc] at hrun
  have htask' : ∀ c t, t ≠ .user → ((K.leave p).exitProc p status).task c = t →
      c ≠ p ∧ K.task c = t := fun c t ht hc => by
    rw [exitProc_task] at hc
    exact task_ne_of_setTask htask ht hc
  have hnew : ∀ c n, (((K.leave p).exitProc p status).task c).newborn = some n →
      (K.task c).newborn = some n := fun c n hc => by
    rw [exitProc_task] at hc
    exact (newborn_of_setTask htask hc).2
  refine ⟨fun c => ?_, ?_, fun c r hc => ?_, fun c hc hs => ?_, fun c hc => ?_, fun c n hc => ?_,
    fun a b n ha hb => h.distinct a b n (hnew a n ha) (hnew b n hb), fun c n x hc => ?_,
    fun c n x hc => ?_, ?_, fun c hc => ?_⟩
  · by_cases hc : c = p
    · simp [hc, exitProc]
    · have hcr : (K.proc c).state ≠ .running := fun hr => by
        have he := (h.sched c).1 hr
        rw [hcpu] at he
        exact hc (Option.some.inj he).symm
      rw [hne c hc, leave_state_iff K p c (by simp) (by simp)]
      simp [hcr, exitProc]
  · have hip : K.initproc ≠ p := Ne.symm hp
    rw [exitProc_initproc, hinit, hne _ hip, leave_alive]
    exact h.init
  · rw [hpar] at hc
    obtain ⟨hr, ha⟩ := hheir c r hc
    rw [hne r hr, leave_alive]
    exact ha
  · rw [exitProc_initproc, hinit] at hc
    rw [hpar]
    apply hheir_ne
    by_cases hcp : c = p
    · exact hcp ▸ h.child p hp (.inl (.inr (.inr hrun)))
    · rw [hne c hcp, leave_alive, leave_state_iff K p c (by simp) (by simp)] at hs
      exact h.child c hc hs
  · have hcp : c ≠ p := fun he => by simp [he, hz] at hc
    rw [hne c hcp, leave_state_iff K p c (by simp) (by simp)] at hc
    rw [hne c hcp, leave_pid, leave_parent]
    have hu := h.unused c hc
    exact ⟨hu.1, by simp [heir, hu.2]⟩
  · have hc' := hnew c n hc
    rw [hne n (hnp c n hc'), leave_state_iff K p n (by simp) (by simp)]
    exact h.newborn c n hc'
  · obtain ⟨-, hc'⟩ := htask' c _ (by simp) hc
    have ho := h.orphan c n x hc'
    rw [hpar]
    simp [heir, ho]
  · obtain ⟨hcp, hc'⟩ := htask' c _ (by simp) hc
    have ha := h.adopted c n x hc'
    rw [hpar]
    simp [heir, ha, hcp]
  · have hc := h.commit
    rw [CommitOk, ← hlog, ← hin] at hc
    exact hc
  · change (K.leave p).inCommit c = true
    rw [hin]
    exact h.committer c (hc.imp (fun hc => (htask' c _ (by simp) hc).2)
      fun hc => (htask' c _ (by simp) hc).2)

/-! ## Every step -/

theorem mild_kill (K : Kernel) (q : ProcId) : Mild K (K.kill q) := by
  refine mild_setProc rfl rfl rfl ?_
  by_cases hs : (K.proc q).state = .sleeping
  · exact .inr ⟨.inl hs, by simp [hs, ProcState.Alive]⟩
  · exact .inl (by simp [hs])

theorem Life.kill (h : K.Life) (q : ProcId) : (K.kill q).Life := by
  refine (mild_kill K q).life h (fun c => ?_) h.commit h.committer
  by_cases hc : c = q
  · have hq := h.sched q
    by_cases hs : (K.proc q).state = .sleeping
    · simpa [Kernel.kill, hc, hs] using hq
    · simpa [Kernel.kill, hc, hs] using hq
  · simpa [Kernel.kill, hc] using h.sched c

theorem mild_setkilled (K : Kernel) (p : ProcId) :
    Mild K (K.setProc p { K.proc p with killed := true }) :=
  mild_setProc rfl rfl rfl (.inl rfl)

theorem Life.done (h : K.Life) (p : ProcId) : (K.setTask p .user).Life :=
  h.goes (touches_refl K) trivial

theorem Life.turned (h : K.Life) (hcpu : K.cpu = some p) (ht : Turned K env p (K.task p) r K') :
    K'.Life := by
  generalize htp : K.task p = t at ht
  cases ht with
  | goes hT hr hplain => exact h.goes hT hplain
  | blocks hT hch hs hk => exact h.blocks hcpu hT hch
  | take np hu => exact h.take hcpu hu K.nextpid
  | drop np hu => exact h.drop hu
  | parent np pid => exact h.setParent hcpu htp
  | runnable np pid => exact h.setRunnable htp
  | exit status hp => exact h.exit hcpu hp status
  | reap addr q hq ha => exact h.reap hq
  | hit pid q hq => exact (h.kill q).done p
  | setkilled =>
    exact ((mild_setkilled K p).life h (sched_stay rfl h.sched) h.commit h.committer).done p

/-- A turn of the kernel, in terms of the outcomes listed in `Turned`. -/
theorem Life.turn (h : K.Life) (ht : K.turn env p = some (r, K')) :
    Turned (K.resume p) env p (K.task p) r K' :=
  act_turned (h.resume p).commit ((h.resume p).committer p) ht

theorem Life.step (h : K.Life) (hs : Step K l K') : K'.Life := by
  cases hs with
  | dispatch p hc hs => exact h.dispatch hc hs
  | yield p hc => exact h.yield hc
  | call p t hc hu ht => exact h.call ht
  | turn p env r _ hc ht => exact (h.resume p).turned hc (h.turn ht)
  | clockintr => exact h.clockintr
  | consoleintr ch => exact h.consoleintr ch

theorem life_boot : boot.Life := by
  refine ⟨fun p => ?_, by decide, fun q p hq => ?_, fun q hq hs => ?_, fun q hq => ?_,
    fun p np hp => ?_, fun p q np hp => ?_, fun p np pid hp => ?_, fun p np pid hp => ?_,
    ⟨fun p hp => ?_, fun p q hp => ?_⟩, fun p hp => ?_⟩
  · simp only [boot]
    split <;> simp
  · simp only [boot] at hq
    split at hq <;> cases hq
  · have hq0 : q ≠ 0 := hq
    simp [boot, hq0, ProcState.Alive] at hs
  · simp only [boot] at hq ⊢
    split at hq
    · cases hq
    · rename_i hq0
      simp [hq0]
  · cases hp
  · cases hp
  · cases hp
  · cases hp
  · cases hp
  · cases hp
  · rcases hp with hp | hp <;> cases hp

theorem Run.life {ls : List Label} (h : Run boot ls K) : K.Life :=
  h.invariant life_boot fun _ _ _ hK hs => hK.step hs

end Kernel

end Xv6
