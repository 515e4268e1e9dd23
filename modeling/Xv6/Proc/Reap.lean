import Xv6.Proc.Life

/-!
# Zombies and `wait`

A zombie stays in the table until `kwait` returns it, and `kwait` gives up only when there is nobody
to wait for.
-/

namespace Xv6

namespace Kernel

/-- The step in which a call of `kwait` returns the process in slot `z`. -/
def Label.Reaps (z : ProcId) (l : Label) : Prop :=
  ∃ p t env pid x, l = .turn p t env (.child z pid x)

/-- The step in which `kfork` lets a new process in slot `z` run. -/
def Label.Starts (z : ProcId) (l : Label) : Prop :=
  ∃ p pid env r, l = .turn p (.forkRunnable z pid) env r

variable {K K' : Kernel} {env : Env} {p q z : ProcId} {t : Task} {r : Ret} {l : Label}

theorem not_reaps_silent : ¬ Label.Reaps z .silent := by
  rintro ⟨_, _, _, _, _, h⟩
  cases h

theorem reaps_turn : Label.Reaps z (.turn p t env r) ↔ ∃ pid x, r = .child z pid x := by
  constructor
  · rintro ⟨_, _, _, pid, x, h⟩
    cases h
    exact ⟨pid, x, rfl⟩
  · rintro ⟨pid, x, rfl⟩
    exact ⟨p, t, env, pid, x, rfl⟩

/-- A slot that nobody runs in, after a turn: it is as it was, or the turn is about it. -/
theorem Turned.slot (h : K.Life) (hcpu : K.cpu = some p) (hz : ¬ (K.proc z).state.Alive)
    (ht : Turned K env p (K.task p) r K') :
    (¬ Label.Reaps z (.turn p (K.task p) env r) ∧ (K'.proc z).state = (K.proc z).state ∧
        (K'.proc z).pid = (K.proc z).pid ∧ (K'.proc z).xstate = (K.proc z).xstate) ∨
      (∃ addr, K.task p = .kwait addr ∧ r = .child z (K.proc z).pid (K.proc z).xstate ∧
        (K.proc z).parent = some p ∧ (K.proc z).state = .zombie ∧ (addr = 0 ∨ env.dst 0 = true) ∧
        (K'.proc z).state = .unused) ∨
      ((∀ pid x, r ≠ .child z pid x) ∧ (K.proc z).state = .unused ∧
        ((K'.proc z).state = .used ∨ (K'.proc z).state = .unused)) ∨
      ((K.proc z).state = .used ∧ ∃ pid, K.task p = .forkRunnable z pid) := by
  have hrun : (K.proc p).state = .running := (h.sched p).2 hcpu
  have hzp : z ≠ p := fun he => hz (he ▸ .inr (.inr hrun))
  -- a mild step leaves the slot alone
  have hmild : ∀ K', Mild K K' → (K'.proc z).state = (K.proc z).state ∧
      (K'.proc z).pid = (K.proc z).pid ∧ (K'.proc z).xstate = (K.proc z).xstate :=
    fun K' m => ⟨(m.state_iff hz).2 rfl, m.pid z, m.xstate z⟩
  generalize htp : K.task p = t at ht
  cases ht with
  | goes hT hr hplain =>
    refine .inl ⟨fun hl => ?_, hmild _ (hT.mild_goes hplain)⟩
    obtain ⟨pid, x, he⟩ := reaps_turn.1 hl
    exact hr z pid x he
  | blocks hT hch hs hk =>
    exact .inl ⟨by simp [reaps_turn], hmild _ (hT.mild_blocks hrun hch)⟩
  | take np hu =>
    by_cases hn : z = np
    · exact .inr (.inr (.inl ⟨by simp, hn ▸ hu, .inl (by simp [takeSlot, hn])⟩))
    · exact .inl ⟨by simp [reaps_turn], by simp [takeSlot, hn]⟩
  | drop np hu =>
    by_cases hn : z = np
    · exact .inr (.inr (.inl ⟨by simp, hn ▸ hu, .inr (by simp [freeproc, hn])⟩))
    · exact .inl ⟨by simp [reaps_turn], by simp [takeSlot, freeproc, hn]⟩
  | parent np pid =>
    refine .inl ⟨by simp [reaps_turn], ?_⟩
    by_cases hn : z = np <;> simp [hn]
  | runnable np pid =>
    by_cases hn : z = np
    · refine .inr (.inr (.inr ⟨?_, pid, by rw [hn]⟩))
      exact hn ▸ h.newborn p np (by rw [htp]; rfl)
    · exact .inl ⟨by simp [reaps_turn], by simp [hn]⟩
  | exit status hp =>
    refine .inl ⟨by simp [reaps_turn], ?_⟩
    change (((K.leave p).exitProc p status).proc z).state = _ ∧ _
    have hsame : ((K.leave p).exitProc p status).proc z = (K.leave p).proc z := by
      simp [exitProc, hzp]
    rcases leave_proc K p z with hl | ⟨hs, -⟩
    · change _ ∧ (((K.leave p).exitProc p status).proc z).pid = _ ∧
        (((K.leave p).exitProc p status).proc z).xstate = _
      rw [hsame, hl]
      exact ⟨rfl, rfl, rfl⟩
    · exact absurd (.inl hs) hz
  | reap addr q hq ha =>
    by_cases hn : z = q
    · subst hn
      obtain ⟨hpar, hzom⟩ := zombieChild_eq_some hq
      exact .inr (.inl ⟨addr, rfl, rfl, hpar, hzom, ha, by simp [freeproc]⟩)
    · refine .inl ⟨?_, by simp [freeproc, hn]⟩
      simp [reaps_turn, Ne.symm hn]
  | hit pid q hq =>
    exact .inl ⟨by simp [reaps_turn], hmild _ ((mild_kill K q).trans (mild_setTask rfl))⟩
  | setkilled =>
    exact .inl ⟨by simp [reaps_turn], hmild _ ((mild_setkilled K p).trans (mild_setTask rfl))⟩

/-- The same for a step. -/
theorem Life.slot (h : K.Life) (hz : ¬ (K.proc z).state.Alive) (hs : Step K l K') :
    (¬ l.Reaps z ∧ (K'.proc z).state = (K.proc z).state ∧
        (K'.proc z).pid = (K.proc z).pid ∧ (K'.proc z).xstate = (K.proc z).xstate) ∨
      (∃ p addr env, l = .turn p (.kwait addr) env (.child z (K.proc z).pid (K.proc z).xstate) ∧
        (K.proc z).parent = some p ∧ (K.proc z).state = .zombie ∧ (addr = 0 ∨ env.dst 0 = true) ∧
        (K'.proc z).state = .unused) ∨
      (¬ l.Reaps z ∧ (K.proc z).state = .unused ∧
        ((K'.proc z).state = .used ∨ (K'.proc z).state = .unused)) ∨
      ((K.proc z).state = .used ∧ l.Starts z) := by
  have hmild : ∀ K', Mild K K' → (K'.proc z).state = (K.proc z).state ∧
      (K'.proc z).pid = (K.proc z).pid ∧ (K'.proc z).xstate = (K.proc z).xstate :=
    fun K' m => ⟨(m.state_iff hz).2 rfl, m.pid z, m.xstate z⟩
  cases hs with
  | dispatch p hc hr => exact .inl ⟨not_reaps_silent, hmild _ (mild_dispatch hr)⟩
  | yield p hc => exact .inl ⟨not_reaps_silent, hmild _ (mild_yield ((h.sched p).2 hc))⟩
  | call p t hc hu ht =>
    exact .inl ⟨not_reaps_silent, hmild _ (mild_setTask (newborn_of_entry ht))⟩
  | clockintr => exact .inl ⟨not_reaps_silent, hmild _ (mild_clockintr K)⟩
  | consoleintr ch => exact .inl ⟨not_reaps_silent, hmild _ (mild_consoleintr K ch)⟩
  | turn p env r _ hc ht =>
    have hzp : z ≠ p := fun he => hz (he ▸ .inr (.inr ((h.sched p).2 hc)))
    have hsame : (K.resume p).proc z = K.proc z := by simp [Kernel.resume, hzp]
    have hslot := Turned.slot (h.resume p) hc (by rwa [hsame]) (h.turn ht)
    rw [hsame] at hslot
    rcases hslot with hkeep | ⟨addr, htask, rfl, hpar, hzom, ha, hu⟩ | ⟨hr, hun, hs⟩ |
      ⟨hu, pid, htask⟩
    · exact .inl hkeep
    · have htask' : K.task p = .kwait addr := htask
      exact .inr (.inl ⟨p, addr, env, by rw [htask'], hpar, hzom, ha, hu⟩)
    · refine .inr (.inr (.inl ⟨fun hl => ?_, hun, hs⟩))
      obtain ⟨pid, x, he⟩ := reaps_turn.1 hl
      exact hr pid x he
    · have htask' : K.task p = .forkRunnable z pid := htask
      exact .inr (.inr (.inr ⟨hu, p, pid, env, r, by rw [htask']⟩))

theorem Life.run {ms : List Label} (h : K.Life) (hr : Run K ms K') : K'.Life := by
  induction hr with
  | refl => exact h
  | step _ hs ih => exact ih.step hs

/-- A zombie is in the table until `kwait` returns it to its parent. -/
theorem Life.zombie_run {ms : List Label} (h : K.Life) (hz : (K.proc z).state = .zombie)
    (hr : Run K ms K') :
    ((∀ l ∈ ms, ¬ l.Reaps z) ∧ (K'.proc z).state = .zombie ∧
        (K'.proc z).pid = (K.proc z).pid ∧ (K'.proc z).xstate = (K.proc z).xstate) ∨
      ∃ ms₁ ms₂ K₁ K₂ p addr env, Run K ms₁ K₁ ∧ (∀ l ∈ ms₁, ¬ l.Reaps z) ∧
        (K₁.proc z).parent = some p ∧ (addr = 0 ∨ env.dst 0 = true) ∧
        Step K₁ (.turn p (.kwait addr) env (.child z (K.proc z).pid (K.proc z).xstate)) K₂ ∧
        (K₂.proc z).state = .unused ∧ Run K₂ ms₂ K' ∧
        ms = ms₁ ++ .turn p (.kwait addr) env (.child z (K.proc z).pid (K.proc z).xstate) :: ms₂ := by
  induction hr with
  | refl => exact .inl ⟨by simp, hz, rfl, rfl⟩
  | @step K₁ K₂ ls l hrun hs ih =>
    rcases ih with ⟨hno, hz₁, hpid, hx⟩ |
      ⟨ms₁, ms₂, A, B, p, addr, env, h₁, hno, hpar, ha, hst, hu, h₂, he⟩
    · have hdead : ¬ (K₁.proc z).state.Alive := by simp [hz₁, ProcState.Alive]
      rcases (h.run hrun).slot hdead hs with
        ⟨hl, hst, hp, hxs⟩ | ⟨p, addr, env, rfl, hpar, -, ha, hu⟩ | ⟨-, hun, -⟩ | ⟨hus, -⟩
      · refine .inl ⟨fun m hm => ?_, hst.trans hz₁, hp.trans hpid, hxs.trans hx⟩
        rcases List.mem_append.1 hm with hm | hm
        · exact hno m hm
        · rwa [List.mem_singleton.1 hm]
      · rw [hpid, hx] at hs ⊢
        exact .inr ⟨ls, [], K₁, K₂, p, addr, env, hrun, hno, hpar, ha, hs, hu, .refl K₂, rfl⟩
      · simp [hz₁] at hun
      · simp [hz₁] at hus
    · exact .inr ⟨ms₁, ms₂ ++ [l], A, B, p, addr, env, h₁, hno, hpar, ha, hst, hu, h₂.step hs,
        by rw [he]; simp⟩

/-- An empty slot is not returned by `kwait` before a new process has started in it. -/
theorem Life.empty_run {ms : List Label} (h : K.Life)
    (hz : (K.proc z).state = .unused ∨ (K.proc z).state = .used) (hr : Run K ms K')
    (hno : ∀ l ∈ ms, ¬ l.Starts z) :
    (∀ l ∈ ms, ¬ l.Reaps z) ∧ ((K'.proc z).state = .unused ∨ (K'.proc z).state = .used) := by
  induction hr with
  | refl => exact ⟨by simp, hz⟩
  | @step K₁ K₂ ls l hrun hs ih =>
    obtain ⟨hno₁, hz₁⟩ := ih fun m hm => hno m (List.mem_append_left _ hm)
    have hl := hno l (List.mem_append_right _ (List.mem_singleton_self l))
    have hdead : ¬ (K₁.proc z).state.Alive := by rcases hz₁ with h | h <;> simp [h, ProcState.Alive]
    have hnew : ¬ l.Reaps z ∧ ((K₂.proc z).state = .unused ∨ (K₂.proc z).state = .used) := by
      rcases (h.run hrun).slot hdead hs with
        ⟨hl, hst, -⟩ | ⟨_, _, _, -, -, hzom, -⟩ | ⟨hl, -, hst⟩ | ⟨-, hstart⟩
      · exact ⟨hl, by rwa [hst]⟩
      · rcases hz₁ with h | h <;> simp [h] at hzom
      · exact ⟨hl, hst.symm⟩
      · exact absurd hstart hl
    refine ⟨fun m hm => ?_, hnew.2⟩
    rcases List.mem_append.1 hm with hm | hm
    · exact hno₁ m hm
    · rw [List.mem_singleton.1 hm]
      exact hnew.1

/-- `kwait` gives up on a process that is not killed, with an address it can write to, only when
that process has no children. -/
theorem kwait_gives_up {addr : BitVec 32} (h : K.kwait env p addr = some (.val (-1), K'))
    (hk : (K.proc p).killed = false) (ha : addr = 0 ∨ env.dst 0 = true) (q : ProcId) :
    (K.proc q).parent ≠ some p := by
  unfold kwait at h
  split at h
  · rw [if_neg (by rintro ⟨h₁, h₂⟩; rcases ha with ha | ha <;> simp_all)] at h
    cases h
  · split at h
    · rename_i hno
      have hno' : ¬ ∃ q, (K.proc q).parent = some p := by simpa [hk] using hno
      exact fun hq => hno' ⟨q, hq⟩
    · cases h

/-- The life cycle of processes, over every run. -/
theorem process_life_cycle {ls : List Label} (h : Run boot ls K) :
    -- at most one process is running, the CPU's
    (∀ p, (K.proc p).state = .running ↔ K.cpu = some p) ∧
    (∀ p q, (K.proc p).state = .running → (K.proc q).state = .running → p = q) ∧
    -- everybody but init has a parent that can wait
    (∀ q, q ≠ K.initproc → (K.proc q).state.Alive ∨ (K.proc q).state = .zombie →
      ∃ p, (K.proc q).parent = some p ∧ (K.proc p).state.Alive) ∧
    -- a zombie stays until its parent's `kwait` returns it, with its exit status
    (∀ z ms K', (K.proc z).state = .zombie → Run K ms K' →
      ((∀ l ∈ ms, ¬ l.Reaps z) ∧ (K'.proc z).state = .zombie ∧
          (K'.proc z).pid = (K.proc z).pid ∧ (K'.proc z).xstate = (K.proc z).xstate) ∨
        ∃ ms₁ ms₂ K₁ K₂ p addr env, Run K ms₁ K₁ ∧ (∀ l ∈ ms₁, ¬ l.Reaps z) ∧
          (K₁.proc z).parent = some p ∧ (addr = 0 ∨ env.dst 0 = true) ∧
          Step K₁ (.turn p (.kwait addr) env (.child z (K.proc z).pid (K.proc z).xstate)) K₂ ∧
          (K₂.proc z).state = .unused ∧ Run K₂ ms₂ K' ∧
          ms = ms₁ ++ .turn p (.kwait addr) env
            (.child z (K.proc z).pid (K.proc z).xstate) :: ms₂) ∧
    -- and is not returned again: the next process `kwait` returns from the slot is a new one
    (∀ z ms K', (K.proc z).state = .unused → Run K ms K' → (∃ l ∈ ms, l.Reaps z) →
      ∃ l ∈ ms, l.Starts z) ∧
    -- `kwait` gives up only without children
    (∀ p addr env K', Step K (.turn p (.kwait addr) env (.val (-1))) K' →
      (K.proc p).killed = false → (addr = 0 ∨ env.dst 0 = true) →
      ∀ q, (K.proc q).parent ≠ some p) := by
  have hlife : K.Life := h.life
  refine ⟨hlife.sched, fun p q hp hq => ?_, fun q hq hs => ?_,
    fun z ms K' hz hr => hlife.zombie_run hz hr, fun z ms K' hz hr hex => ?_,
    fun p addr env K' hs hk ha q => ?_⟩
  · rw [hlife.sched] at hp hq
    exact Option.some.inj (hp.symm.trans hq)
  · obtain ⟨p, hp⟩ := Option.ne_none_iff_exists'.1 (hlife.child q hq hs)
    exact ⟨p, hp, hlife.parent q p hp⟩
  · by_contra hno
    obtain ⟨l, hl, hreap⟩ := hex
    exact (hlife.empty_run (.inl hz) hr fun m hm hst => hno ⟨m, hm, hst⟩).1 l hl hreap
  · generalize hlab : Label.turn p (.kwait addr) env (.val (-1)) = lab at hs
    cases hs with
    | turn p' env' r _ hc ht =>
      obtain ⟨rfl, htask, rfl, rfl⟩ := Label.turn.inj hlab
      have hgive : (K.resume p).kwait env p addr = some (.val (-1), K') := by
        rwa [Kernel.turn, ← htask] at ht
      have hq := kwait_gives_up hgive (by simpa [Kernel.resume] using hk) ha q
      by_cases hqp : q = p
      · simpa [Kernel.resume, hqp] using hq
      · simpa [Kernel.resume, hqp] using hq
    | _ => cases hlab

/-- Init forks, and the child exits with status 7. -/
def forkExit (env : Env) : List Move :=
  [.dispatch 0, .call (.kfork 0), .turn env, .turn env, .turn env, .turn env, .yield,
    .dispatch 1, .call (.kexit 7), .turn env]

/-- The theorem at a state with a zombie: it has a parent that can wait for it. -/
theorem process_life_cycle_zombie : ∃ ls K, Run boot ls K ∧ (K.proc 1).state = .zombie ∧
    (K.proc 1).xstate = 7 ∧ ∃ p, (K.proc 1).parent = some p ∧ (K.proc p).state.Alive := by
  obtain ⟨ls, K, hrun, hK⟩ := exists_run
    (P := fun K => (K.proc 1).state = .zombie ∧ (K.proc 1).xstate = 7 ∧ K.initproc = 0)
    (show (moves (forkExit ⟨fun _ => none, fun _ => true, fun _ => true, fun _ => 0⟩) boot).any _
      = true by decide +kernel)
  obtain ⟨hz, hx, hinit⟩ := of_decide_eq_true hK
  have hne : (1 : ProcId) ≠ K.initproc := by
    rw [hinit]
    decide
  exact ⟨ls, K, hrun, hz, hx, (process_life_cycle hrun).2.2.1 1 hne (.inr hz)⟩

end Kernel

end Xv6
