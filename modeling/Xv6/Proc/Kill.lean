import Xv6.Proc.Wakeup

/-!
# `kill`

`kkill` compares process ids without looking at the state of the slot, and the id of an unused slot
is 0. So `kkill(0)` finds the first unused slot, marks it killed and reports success; `allocproc`
does not clear the mark, and the next process in the slot is born killed. Where the scan does not
stop at an unused slot, `kkill` does what it should, and new processes start unkilled.
-/

namespace Xv6

namespace Kernel

/-- The turn of `kkill` at slot `i` does not stop at an unused slot. -/
def Aims (K : Kernel) (pid : BitVec 32) (i : ℕ) : Prop :=
  ∀ h : i < nproc, (K.proc ⟨i, h⟩).pid = pid → (K.proc ⟨i, h⟩).state ≠ .unused

/-- The states of runs in which no call of `kkill` stops at an unused slot. -/
inductive Aimed : Kernel → Prop
  | start : Aimed boot
  | step {K K' : Kernel} {l : Label} (h : Aimed K) (hs : Step K l K')
    (hl : ∀ p pid i env r, l = .turn p (.kkill pid i) env r → K.Aims pid i) : Aimed K'

/-- A turn of `kkill(pid)` changes nothing, and the call goes on or fails; or it succeeds, having
marked one process with that id, in a slot that is in use. It does not touch unused slots. -/
def KillsLive (K K' : Kernel) (pid : BitVec 32) (r : Ret) : Prop :=
  (K'.proc = K.proc ∧ (r = .going ∨ r = .val (-1)) ∨
    r = .val 0 ∧ ∃ q, (K.proc q).state ≠ .unused ∧ (K.proc q).pid = pid ∧
      K'.proc = (K.kill q).proc) ∧
  ∀ u, (K.proc u).state = .unused → K'.proc u = K.proc u

variable {K K' : Kernel} {env : Env} {p q : ProcId} {pid : BitVec 32} {i : ℕ} {r : Ret}
  {l : Label}

theorem Aimed.run (h : Aimed K) : ∃ ls, Run boot ls K := by
  induction h with
  | start => exact ⟨[], .refl _⟩
  | @step _ _ l _ hs _ ih =>
    obtain ⟨ls, hr⟩ := ih
    exact ⟨ls ++ [l], hr.step hs⟩

/-! ## Unused slots are not marked -/

theorem Turned.unused_killed (h : K.Life) (hcpu : K.cpu = some p)
    (hclean : ∀ q, (K.proc q).state = .unused → (K.proc q).killed = false)
    (ht : Turned K env p (K.task p) r K')
    (haim : ∀ pid i, K.task p = .kkill pid i → K.Aims pid i)
    (hq : (K'.proc q).state = .unused) : (K'.proc q).killed = false := by
  have hrun : (K.proc p).state = .running := (h.sched p).2 hcpu
  generalize htp : K.task p = t at ht
  -- most turns leave an unused slot as it is
  suffices hsame : K'.proc q = K.proc q ∨ (K'.proc q).killed = false by
    rcases hsame with he | hk
    · rw [he] at hq ⊢
      exact hclean q hq
    · exact hk
  cases ht with
  | goes hT hr hplain =>
    rcases hT.proc q with he | ⟨-, he⟩
    · exact .inl he
    · rw [setTask_proc, he] at hq
      cases hq
  | @blocks W K₁ _ ch t' hT hch hs hk =>
    by_cases hqp : q = p
    · simp [Kernel.sleep, hqp] at hq
    · have hsl : (K₁.sleep p ch t').proc q = K₁.proc q := by simp [Kernel.sleep, hqp]
      rcases hT.proc q with he | ⟨-, he⟩
      · exact .inl (hsl.trans he)
      · rw [hsl, he] at hq
        cases hq
  | take np hu =>
    have hn : q ≠ np := fun he => by simp [takeSlot, he] at hq
    exact .inl (by simp [takeSlot, hn])
  | drop np hu =>
    by_cases hn : q = np
    · exact .inr (by simp [freeproc, hn])
    · exact .inl (by simp [freeproc, takeSlot, hn])
  | parent np pid =>
    have hused : (K.proc np).state = .used := h.newborn p np (by rw [htp]; rfl)
    have hn : q ≠ np := fun he => by simp [he, hused] at hq
    exact .inl (by simp [hn])
  | runnable np pid =>
    have hn : q ≠ np := fun he => by simp [he] at hq
    exact .inl (by simp [hn])
  | exit status hp =>
    change (((K.leave p).exitProc p status).proc q).state = .unused at hq
    change ((K.leave p).exitProc p status).proc q = K.proc q ∨
      (((K.leave p).exitProc p status).proc q).killed = false
    have hqp : q ≠ p := fun he => by simp [exitProc, he] at hq
    have hex : ((K.leave p).exitProc p status).proc q = (K.leave p).proc q := by
      simp [exitProc, hqp]
    rw [hex, leave_state_iff K p q (by simp) (by simp)] at hq
    rcases leave_proc K p q with he | ⟨hs, -⟩
    · exact .inr (by rw [hex, he]; exact hclean q hq)
    · simp [hs] at hq
  | reap addr c hc ha =>
    by_cases hn : q = c
    · exact .inr (by simp [freeproc, hn])
    · exact .inl (by simp [freeproc, hn])
  | hit pid c hc =>
    have hn : q ≠ c := by
      rintro rfl
      have hu : (K.proc q).state = .unused := by
        by_cases hs : (K.proc q).state = .sleeping
        · simp [Kernel.kill, hs] at hq
        · simpa [Kernel.kill, hs] using hq
      exact haim pid q htp q.2 hc hu
    exact .inl (by simp [Kernel.kill, hn])
  | setkilled =>
    have hqp : q ≠ p := fun he => by simp [he, hrun] at hq
    exact .inl (by simp [hqp])

/-- A turn that takes an unused slot for a new process leaves its mark as it is. -/
theorem Turned.born (h : K.Life) (hcpu : K.cpu = some p) (ht : Turned K env p (K.task p) r K')
    (hu : (K.proc q).state = .unused) (hq : (K'.proc q).state = .used)
    (hk : (K.proc q).killed = false) : (K'.proc q).killed = false := by
  have hdead : ¬ (K.proc q).state.Alive := by simp [hu, ProcState.Alive]
  have hmild : ∀ K', Mild K K' → (K'.proc q).state ≠ .used := fun K' m hus => by
    rw [m.state_iff (by decide), hu] at hus
    cases hus
  have hrun : (K.proc p).state = .running := (h.sched p).2 hcpu
  generalize htp : K.task p = t at ht
  cases ht with
  | goes hT hr hplain => exact absurd hq (hmild _ (hT.mild_goes hplain))
  | blocks hT hch hs hk => exact absurd hq (hmild _ (hT.mild_blocks hrun hch))
  | take np hnp =>
    by_cases hn : q = np
    · subst hn
      simpa [takeSlot] using hk
    · simpa [takeSlot, hn] using hk
  | drop np hnp =>
    by_cases hn : q = np
    · simp [freeproc, hn]
    · simpa [freeproc, takeSlot, hn] using hk
  | parent np pid =>
    by_cases hn : q = np
    · subst hn
      simpa using hk
    · simpa [hn] using hk
  | runnable np pid =>
    by_cases hn : q = np
    · simp [hn] at hq
    · simpa [hn] using hk
  | exit status hp =>
    have hqp : q ≠ p := fun he => by simp [he, hrun] at hu
    change (((K.leave p).exitProc p status).proc q).state = .used at hq
    have hex : ((K.leave p).exitProc p status).proc q = (K.leave p).proc q := by
      simp [exitProc, hqp]
    rw [hex, leave_state_iff K p q (by simp) (by simp), hu] at hq
    cases hq
  | reap addr c hc ha =>
    by_cases hn : q = c
    · simp [freeproc, hn]
    · simpa [freeproc, hn] using hk
  | hit pid c hc => exact absurd hq (hmild _ ((mild_kill K c).trans (mild_setTask rfl)))
  | setkilled => exact absurd hq (hmild _ ((mild_setkilled K p).trans (mild_setTask rfl)))

/-- In runs where `kkill` does not stop at unused slots, none of them is marked. -/
theorem Aimed.clean (h : Aimed K) : ∀ q, (K.proc q).state = .unused → (K.proc q).killed = false := by
  induction h with
  | start =>
    intro q _
    simp only [boot]
    split <;> rfl
  | @step K K' l hK hs hl ih =>
    intro q hq
    obtain ⟨ls, hrun⟩ := hK.run
    have hlife : K.Life := hrun.life
    -- a slot other than the caller's, or woken at most
    have hwoken : (K'.proc q = K.proc q ∨
        (K.proc q).state = .sleeping ∧ K'.proc q = { K.proc q with state := .runnable }) →
        (K'.proc q).killed = false := by
      rintro (he | ⟨-, he⟩)
      · rw [he] at hq ⊢
        exact ih q hq
      · simp [he] at hq
    cases hs with
    | dispatch p hc hr =>
      have hqp : q ≠ p := fun he => by simp [Kernel.dispatch, he] at hq
      exact hwoken (.inl (by simp [Kernel.dispatch, hqp]))
    | yield p hc =>
      have hqp : q ≠ p := fun he => by simp [Kernel.yield, he] at hq
      exact hwoken (.inl (by simp [Kernel.yield, hqp]))
    | call p t hc hu ht => exact hwoken (.inl rfl)
    | clockintr => exact hwoken (clockintr_proc K q)
    | consoleintr ch => exact hwoken (consoleintr_proc K ch q)
    | turn p env r _ hc ht =>
      -- clearing the caller's channel changes neither states nor marks nor ids
      have hres : ∀ c, ((K.resume p).proc c).state = (K.proc c).state ∧
          ((K.resume p).proc c).killed = (K.proc c).killed ∧
          ((K.resume p).proc c).pid = (K.proc c).pid := by
        intro c
        by_cases hcp : c = p <;> simp [Kernel.resume, hcp]
      refine Turned.unused_killed (hlife.resume p) hc (fun c hcu => ?_) (hlife.turn ht)
        (fun pid i htask hi hpid => ?_) hq
      · rw [(hres c).2.1]
        exact ih c ((hres c).1 ▸ hcu)
      · rw [(hres _).1]
        exact hl p pid i env r (by rw [show K.task p = .kkill pid i from htask]) hi
          ((hres _).2.2 ▸ hpid)

/-! ## What a turn of `kkill` does -/

/-- A process in `kkill` has no channel to clear. -/
theorem resume_kkill (h : K.Waits) (ht : K.task p = .kkill pid i) : (K.resume p).proc = K.proc := by
  have hchan : (K.proc p).chan = none := by
    cases hc : (K.proc p).chan with
    | none => rfl
    | some c =>
      have hs := h.chan p c hc
      simp [ht, Task.sleepsOn] at hs
  funext c
  by_cases hcp : c = p
  · subst hcp
    simp only [Kernel.resume, setProc_proc, if_true]
    rw [← hchan]
  · simp [Kernel.resume, hcp]

/-- `kkill` does what it should exactly where its scan does not stop at an unused slot; and then
every process that `allocproc` makes is born unkilled. -/
theorem kill_live_iff (h : Aimed K) :
    (∀ p pid i env r K', Step K (.turn p (.kkill pid i) env r) K' →
      (KillsLive K K' pid r ↔ K.Aims pid i)) ∧
    ∀ l K' q, Step K l K' → (K.proc q).state = .unused → (K'.proc q).state = .used →
      (K'.proc q).killed = false := by
  obtain ⟨ls, hrun⟩ := h.run
  have hlife : K.Life := hrun.life
  have hwaits : K.Waits := hrun.waits
  have hclean := h.clean
  constructor
  · intro p pid i env r K' hs
    generalize hlab : Label.turn p (.kkill pid i) env r = lab at hs
    cases hs with
    | turn p' env' r' _ hc ht =>
      obtain ⟨rfl, htask, rfl, rfl⟩ := Label.turn.inj hlab
      have hproc : (K.resume p).proc = K.proc := resume_kkill hwaits htask.symm
      have hkk : (K.resume p).kkill p pid i = some (r, K') := by
        rwa [Kernel.turn, ← htask] at ht
      unfold kkill at hkk
      rw [hproc] at hkk
      split at hkk
      · rename_i hi
        split at hkk
        · rename_i hpid
          cases hkk
          have hkill : (((K.resume p).kill ⟨i, hi⟩).setTask p .user).proc =
              (K.kill ⟨i, hi⟩).proc := by
            simp only [setTask_proc, Kernel.kill, hproc]
            funext c
            simp only [setProc_proc, hproc]
          constructor
          · intro hok hi' _ hu
            have hsame := hok.2 ⟨i, hi⟩ hu
            rw [hkill] at hsame
            have hk := congrArg Proc.killed hsame
            simp [Kernel.kill, hclean _ hu] at hk
          · intro haim
            have hlive := haim hi hpid
            refine ⟨.inr ⟨rfl, ⟨i, hi⟩, hlive, hpid, hkill⟩, fun u hu => ?_⟩
            have hne : u ≠ ⟨i, hi⟩ := fun he => hlive (he ▸ hu)
            rw [hkill]
            simp [Kernel.kill, hne]
        · rename_i hpid
          cases hkk
          exact ⟨fun _ _ he => absurd he hpid, fun _ => ⟨.inl ⟨hproc, .inl rfl⟩,
            fun u _ => congrFun hproc u⟩⟩
      · rename_i hi
        cases hkk
        exact ⟨fun _ hi' => absurd hi' hi, fun _ => ⟨.inl ⟨hproc, .inr rfl⟩,
          fun u _ => congrFun hproc u⟩⟩
    | _ => cases hlab
  · intro l K' q hs hu hq
    have hmild : ∀ K', Mild K K' → (K'.proc q).state ≠ .used := fun K' m hus => by
      rw [m.state_iff (by decide), hu] at hus
      cases hus
    cases hs with
    | dispatch p hc hr => exact absurd hq (hmild _ (mild_dispatch hr))
    | yield p hc => exact absurd hq (hmild _ (mild_yield ((hlife.sched p).2 hc)))
    | call p t hc hut ht => exact absurd hq (hmild _ (mild_setTask (newborn_of_entry ht)))
    | clockintr => exact absurd hq (hmild _ (mild_clockintr K))
    | consoleintr ch => exact absurd hq (hmild _ (mild_consoleintr K ch))
    | turn p env r _ hc ht =>
      have hrunp : (K.proc p).state = .running := (hlife.sched p).2 hc
      have hqp : q ≠ p := fun he => by simp [he, hrunp] at hu
      have hres : (K.resume p).proc q = K.proc q := by simp [Kernel.resume, hqp]
      exact Turned.born (hlife.resume p) hc (hlife.turn ht) (by rw [hres, hu]) hq
        (by rw [hres]; exact hclean q hu)

/-- User memory and allocations that never fail. -/
def plentyEnv : Env := ⟨fun _ => none, fun _ => true, fun _ => true, fun _ => 0⟩

/-- The theorem at a call of `kkill(1)` by init, which has id 1. -/
theorem kill_live_iff_init : ∃ K K', Aimed K ∧
    Step K (.turn 0 (.kkill 1 0) plentyEnv (.val 0)) K' ∧ KillsLive K K' 1 (.val 0) := by
  have h₁ : Aimed (boot.dispatch 0) := .step .start (.dispatch 0 rfl rfl) (by simp)
  have h₂ : Aimed ((boot.dispatch 0).setTask 0 (.kkill 1 0)) :=
    .step h₁ (.call 0 (.kkill 1 0) rfl rfl rfl) (by simp)
  have hs : Step ((boot.dispatch 0).setTask 0 (.kkill 1 0))
      (.turn 0 (.kkill 1 0) plentyEnv (.val 0)) _ := .turn 0 plentyEnv (.val 0) _ rfl rfl
  have haim : ((boot.dispatch 0).setTask 0 (.kkill 1 0)).Aims 1 0 := fun _ _ =>
    (by decide : ProcState.running ≠ .unused)
  exact ⟨_, _, h₂, hs, ((kill_live_iff h₂).1 0 1 0 plentyEnv (.val 0) _ hs).2 haim⟩

/-- Init calls `kkill(0)`, and its scan has passed slot 0. -/
def killZero : List Move := [.dispatch 0, .call (.kkill 0 0), .turn plentyEnv]

/-- Init calls `kfork` to its end. -/
def forkOnce : List Move :=
  [.call (.kfork 0), .turn plentyEnv, .turn plentyEnv, .turn plentyEnv, .turn plentyEnv]

/-- `kkill(0)` succeeds by marking an unused slot, and the next process in the slot starts
killed. -/
theorem kill_zero_marks_unused : ∃ ls K K', Run boot ls K ∧
    Step K (.turn 0 (.kkill 0 1) plentyEnv (.val 0)) K' ∧ (K.proc 1).state = .unused ∧
    (K.proc 1).killed = false ∧ (K'.proc 1).killed = true ∧ ¬ KillsLive K K' 0 (.val 0) ∧
    ∃ ls' K'', Run K' ls' K'' ∧ (K''.proc 1).state = .runnable ∧ (K''.proc 1).pid = 2 ∧
      (K''.proc 1).killed = true := by
  obtain ⟨ls, K, hrun, hK⟩ := exists_run (K := boot)
    (P := fun K => K.cpu = some 0 ∧ K.task 0 = .kkill 0 1 ∧ (K.proc 1).state = .unused ∧
      (K.proc 1).killed = false ∧ (K.turn plentyEnv 0).any fun out =>
        out.1 = .val 0 ∧ (out.2.proc 1).killed = true ∧ (moves forkOnce out.2).any fun K'' =>
          (K''.proc 1).state = .runnable ∧ (K''.proc 1).pid = 2 ∧ (K''.proc 1).killed = true)
    (show (moves killZero boot).any _ = true by decide +kernel)
  obtain ⟨hc, htask, hu, hk, hturn⟩ := of_decide_eq_true hK
  obtain ⟨⟨r, K'⟩, ht, hout⟩ := (Option.any_eq_true _ _).1 hturn
  obtain ⟨rfl, hk', hfork⟩ := of_decide_eq_true hout
  have hs : Step K (.turn 0 (.kkill 0 1) plentyEnv (.val 0)) K' :=
    htask ▸ .turn 0 plentyEnv (.val 0) K' hc ht
  obtain ⟨ls', K'', hrun', hK''⟩ := exists_run hfork
  refine ⟨ls, K, K', hrun, hs, hu, hk, hk', fun hlive => ?_, ls', K'', hrun', ?_⟩
  · have hsame := congrArg Proc.killed (hlive.2 1 hu)
    rw [hk', hk] at hsame
    cases hsame
  · exact of_decide_eq_true hK''

end Kernel

end Xv6
