import Xv6.Proc.Kernel
import Mathlib.Data.Set.Insert

/-!
# What a turn can do

Most turns change objects, wake those who sleep on them, and return or sleep. `Touches W K K'` says
what such a turn does before it returns or sleeps: `W` are the channels it wakes, and a process
that waits on another channel still has something to wait for. The few turns that change the
process table in other ways are listed one by one in `Turned`, and `act_turned` says that there are
no others. The invariants of the later modules are proved from `Turned`.
-/

namespace Xv6

/-- The channel a process sleeps on at a point in the kernel. -/
def Task.sleepsOn (p : ProcId) : Task → Option Chan
  | .acquiresleep l => some (.sleeplock l)
  | .beginOp => some .log
  | .pipewrite pi _ _ => some (.nwrite pi)
  | .piperead pi _ => some (.nread pi)
  | .kwait _ => some (.proc p)
  | .pauseLoop _ _ => some .ticks
  | .consoleread _ _ => some .cons
  | _ => none

/-- The loops that look at `killed` before they sleep. -/
def Task.Killable : Task → Prop
  | .pipewrite _ _ _ | .piperead _ _ | .kwait _ | .pauseLoop _ _ | .consoleread _ _ => True
  | _ => False

/-- Where a turn leaves a process that neither sleeps nor has a new process in hand: back at its
caller, or further on in a scan. -/
def Task.Plain : Task → Prop
  | .user | .kfork _ | .kkill _ _ => True
  | _ => False

namespace Kernel

/-- The condition of the loop around a `sleep`. -/
def Stuck (K : Kernel) : Chan → Task → Prop
  | .sleeplock l, _ => (K.lock l).locked = true
  | .log, _ => K.log.committing = true ∨ (K.log.n : ℤ) + (K.log.outstanding + 1) * 10 > 30
  | .nread pi, _ => (K.pipe pi).Empty ∧ (K.pipe pi).writeopen = true
  | .nwrite pi, _ => (K.pipe pi).Full ∧ (K.pipe pi).readopen = true
  | .proc p, _ => (∃ q, (K.proc q).parent = some p) ∧
      ∀ q, (K.proc q).parent = some p → (K.proc q).state ≠ .zombie
  | .cons, _ => K.cons.r = K.cons.w
  | .ticks, .pauseLoop n ticks0 => (K.ticks - ticks0).toNat < n.toNat
  | .ticks, _ => False

/-- At most one process commits, and only while `log_committing` is set. -/
def CommitOk (K : Kernel) : Prop :=
  (∀ p, K.inCommit p = true → K.log.committing = true) ∧
    ∀ p q, K.inCommit p = true → K.inCommit q = true → p = q

/-- Process `p` changes objects and wakes the sleepers on `W`. -/
structure Touches (p : ProcId) (W : Set Chan) (K K' : Kernel) : Prop where
  cpu : K'.cpu = K.cpu
  initproc : K'.initproc = K.initproc
  task : K'.task = K.task
  /-- A process is as it was, unless it has been woken. -/
  proc : ∀ q, K'.proc q = K.proc q ∨
    (K.proc q).state = .sleeping ∧ K'.proc q = { K.proc q with state := .runnable }
  /-- Nobody sleeps on. -/
  woken : ∀ q, some q ≠ K.cpu → (K'.proc q).state = .sleeping →
    ∀ ch ∈ W, (K.proc q).chan ≠ some ch
  stuck : ∀ ch t, ch ∉ W → K.Stuck ch t → K'.Stuck ch t
  pipe : (∀ pi, (K.pipe pi).Sound) → ∀ pi, (K'.pipe pi).Sound
  commit : K.CommitOk → K'.CommitOk
  inCommit : ∀ q ≠ p, K'.inCommit q = K.inCommit q

/-- The outcomes of a turn of process `p`, from where it is. -/
inductive Turned (K : Kernel) (env : Env) (p : ProcId) : Task → Ret → Kernel → Prop
  | goes {W K₁ t r t'} (h : Touches p W K K₁) (hr : ∀ q pid x, r ≠ .child q pid x)
    (ht : t'.Plain) : Turned K env p t r (K₁.setTask p t')
  | blocks {W K₁ t ch t'} (h : Touches p W K K₁) (hch : t'.sleepsOn p = some ch)
    (hs : K₁.Stuck ch t') (hk : t'.Killable → (K.proc p).killed = false) :
    Turned K env p t .going (K₁.sleep p ch t')
  | take (np : ProcId) (hu : (K.proc np).state = .unused) :
    Turned K env p (.kfork np) .going
      (((K.takeSlot np).setTask np .user).setTask p (.forkParent np K.nextpid))
  | drop (np : ProcId) (hu : (K.proc np).state = .unused) :
    Turned K env p (.kfork np) (.val (-1)) (((K.takeSlot np).freeproc np).setTask p .user)
  | parent (np : ProcId) (pid : BitVec 32) :
    Turned K env p (.forkParent np pid) .going
      ((K.setProc np { K.proc np with parent := some p }).setTask p (.forkRunnable np pid))
  | runnable (np : ProcId) (pid : BitVec 32) :
    Turned K env p (.forkRunnable np pid) (.val pid.toInt)
      ((K.setProc np { K.proc np with state := .runnable }).setTask p .user)
  | exit (status : ℤ) (hp : p ≠ K.initproc) :
    Turned K env p (.kexit status) .going
      (((K.reparent p).wakeup (((K.reparent p).proc p).parent.map .proc)).exitProc p status)
  | reap (addr : BitVec 32) (q : ProcId) (hq : K.zombieChild p = some q)
    (ha : addr = 0 ∨ env.dst 0 = true) :
    Turned K env p (.kwait addr) (.child q (K.proc q).pid (K.proc q).xstate)
      ((K.freeproc q).setTask p .user)
  | hit (pid : BitVec 32) (q : ProcId) (hq : (K.proc q).pid = pid) :
    Turned K env p (.kkill pid q) (.val 0) ((K.kill q).setTask p .user)
  | setkilled : Turned K env p .setkilled (.val 0)
      ((K.setProc p { K.proc p with killed := true }).setTask p .user)

variable {K K₁ : Kernel} {env : Env} {p : ProcId} {W : Set Chan}

/-! ## Changes of objects -/

/-- Processes differ by wakeups at most, so who has children to wait for does not change. -/
theorem stuck_proc {K' : Kernel} (h : ∀ q, K'.proc q = K.proc q ∨
      (K.proc q).state = .sleeping ∧ K'.proc q = { K.proc q with state := .runnable })
    {q : ProcId} {t : Task} (hs : K.Stuck (.proc q) t) : K'.Stuck (.proc q) t := by
  have hpar : ∀ c, (K'.proc c).parent = (K.proc c).parent := by
    intro c
    rcases h c with hc | ⟨-, hc⟩ <;> rw [hc]
  refine ⟨hs.1.imp fun c hc => (hpar c).trans hc, fun c hc => ?_⟩
  have hz := hs.2 c ((hpar c).symm.trans hc)
  rcases h c with hc' | ⟨-, hc'⟩ <;> rw [hc']
  · exact hz
  · simp

/-- A change of objects that wakes nobody, or of which the wakeup is still to come. -/
structure Alters (p : ProcId) (W : Set Chan) (K K' : Kernel) : Prop where
  proc : K'.proc = K.proc
  cpu : K'.cpu = K.cpu
  initproc : K'.initproc = K.initproc
  task : K'.task = K.task
  stuck : ∀ ch t, ch ∉ W → (∀ q, ch ≠ .proc q) → K.Stuck ch t → K'.Stuck ch t
  pipe : (∀ pi, (K.pipe pi).Sound) → ∀ pi, (K'.pipe pi).Sound
  commit : K.CommitOk → K'.CommitOk
  inCommit : ∀ q ≠ p, K'.inCommit q = K.inCommit q

theorem Alters.refl (K : Kernel) : Alters p ∅ K K :=
  ⟨rfl, rfl, rfl, rfl, fun _ _ _ _ h => h, id, id, fun _ _ => rfl⟩

/-- A change after which no condition has become false needs no wakeup. -/
theorem Alters.touches (h : Alters p ∅ K K₁) : Touches p ∅ K K₁ where
  cpu := h.cpu
  initproc := h.initproc
  task := h.task
  proc q := .inl (congrFun h.proc q)
  woken _ _ _ ch hch := absurd hch (Set.notMem_empty ch)
  stuck ch t hch hs := by
    by_cases hp : ∃ q, ch = .proc q
    · obtain ⟨q, rfl⟩ := hp
      exact stuck_proc (fun q => .inl (congrFun h.proc q)) hs
    · exact h.stuck ch t hch (fun q hq => hp ⟨q, hq⟩) hs
  pipe := h.pipe
  commit := h.commit
  inCommit := h.inCommit

theorem wakeup_proc (K : Kernel) (ch : Option Chan) (q : ProcId) :
    (K.wakeup ch).proc q = K.proc q ∨
      (K.proc q).state = .sleeping ∧
        (K.wakeup ch).proc q = { K.proc q with state := .runnable } := by
  simp only [wakeup]
  split
  · rename_i h
    exact .inr ⟨h.2.1, rfl⟩
  · exact .inl rfl

theorem wakeup_woken (K : Kernel) (ch : Chan) {q : ProcId} (hq : some q ≠ K.cpu)
    (hs : ((K.wakeup (some ch)).proc q).state = .sleeping) : (K.proc q).chan ≠ some ch := by
  intro hc
  simp only [wakeup] at hs
  split at hs
  · cases hs
  · rename_i h
    exact h ⟨hq, hs, hc⟩

/-- Conditions on objects do not read the process table. -/
theorem stuck_wakeup {ch c : Chan} {t : Task} (hp : ∀ q, c ≠ .proc q) (hs : K.Stuck c t) :
    (K.wakeup (some ch)).Stuck c t := by
  cases c with
  | proc q => exact absurd rfl (hp q)
  | ticks => cases t <;> exact hs
  | _ => exact hs

/-- A change followed by the wakeup of the one channel whose condition it may have made false. -/
theorem Alters.wakeup {ch : Chan} (h : Alters p {ch} K K₁) :
    Touches p {ch} K (K₁.wakeup (some ch)) where
  cpu := h.cpu
  initproc := h.initproc
  task := h.task
  proc q := by
    have hw := wakeup_proc K₁ (some ch) q
    rwa [h.proc] at hw
  woken q hq hs c hc := by
    obtain rfl : c = ch := hc
    have hw := wakeup_woken K₁ c (by rwa [h.cpu]) hs
    rwa [h.proc] at hw
  stuck c t hc hs := by
    by_cases hp : ∃ q, c = .proc q
    · obtain ⟨q, rfl⟩ := hp
      refine stuck_proc (fun q => ?_) hs
      have hw := wakeup_proc K₁ (some ch) q
      rwa [h.proc] at hw
    · have hp' : ∀ q, c ≠ .proc q := fun q hq => hp ⟨q, hq⟩
      exact stuck_wakeup hp' (h.stuck c t hc hp' hs)
  pipe := h.pipe
  commit := h.commit
  inCommit := h.inCommit

/-! ## The turns that touch objects only -/

variable {K' : Kernel} {t t' : Task} {r : Ret} {ch : Chan}

theorem turned_done {x : ℤ} (hd : K₁.done p x = some (r, K')) (h : Touches p W K K₁) :
    Turned K env p t r K' := by
  cases hd
  exact .goes h (by simp) trivial

theorem turned_block (hb : K₁.block p ch t' = some (r, K')) (h : Touches p W K K₁)
    (hch : t'.sleepsOn p = some ch) (hs : K₁.Stuck ch t')
    (hk : t'.Killable → (K.proc p).killed = false) : Turned K env p t r K' := by
  cases hb
  exact .blocks h hch hs hk

theorem touches_refl (K : Kernel) : Touches p ∅ K K := (Alters.refl K).touches

theorem alters_lock {l : ℕ} {x : Sleeplock} (hx : Chan.sleeplock l ∉ W → x.locked = true) :
    Alters p W K (K.setLock l x) where
  proc := rfl
  cpu := rfl
  initproc := rfl
  task := rfl
  stuck c t hc hp hs := by
    cases c with
    | proc q => exact absurd rfl (hp q)
    | ticks => cases t <;> exact hs
    | sleeplock j =>
      by_cases hj : j = l
      · subst hj
        simpa [Stuck, setLock] using hx hc
      · simpa [Stuck, setLock, hj] using hs
    | _ => exact hs
  pipe := id
  commit := id
  inCommit _ _ := rfl

theorem alters_pipe {pi : ℕ} {x : Pipe}
    (hr : Chan.nread pi ∉ W → (K.pipe pi).Empty ∧ (K.pipe pi).writeopen = true →
      x.Empty ∧ x.writeopen = true)
    (hw : Chan.nwrite pi ∉ W → (K.pipe pi).Full ∧ (K.pipe pi).readopen = true →
      x.Full ∧ x.readopen = true)
    (hs : (K.pipe pi).Sound → x.Sound) : Alters p W K (K.setPipe pi x) where
  proc := rfl
  cpu := rfl
  initproc := rfl
  task := rfl
  stuck c t hc hp hst := by
    cases c with
    | proc q => exact absurd rfl (hp q)
    | ticks => cases t <;> exact hst
    | nread j =>
      by_cases hj : j = pi
      · subst hj
        simpa [Stuck, setPipe] using hr hc hst
      · simpa [Stuck, setPipe, hj] using hst
    | nwrite j =>
      by_cases hj : j = pi
      · subst hj
        simpa [Stuck, setPipe] using hw hc hst
      · simpa [Stuck, setPipe, hj] using hst
    | _ => exact hst
  pipe h j := by
    by_cases hj : j = pi
    · subst hj
      simpa [setPipe] using hs (h j)
    · simpa [setPipe, hj] using h j
  commit := id
  inCommit _ _ := rfl

/-- A change of the log's variables, and of whether `p` commits. -/
theorem alters_log {lg : LogCounts} {ic : ProcId → Bool}
    (hs : Chan.log ∉ W →
      K.log.committing = true ∨ (K.log.n : ℤ) + (K.log.outstanding + 1) * 10 > 30 →
      lg.committing = true ∨ (lg.n : ℤ) + (lg.outstanding + 1) * 10 > 30)
    (hc : K.CommitOk → { K with log := lg, inCommit := ic }.CommitOk)
    (hi : ∀ q ≠ p, ic q = K.inCommit q) :
    Alters p W K { K with log := lg, inCommit := ic } where
  proc := rfl
  cpu := rfl
  initproc := rfl
  task := rfl
  stuck c t hcW hp hst := by
    cases c with
    | proc q => exact absurd rfl (hp q)
    | ticks => cases t <;> exact hst
    | log => exact hs hcW hst
    | _ => exact hst
  pipe := id
  commit := hc
  inCommit := hi

theorem alters_cons {c : Cons} (hc : Chan.cons ∉ W → K.cons.r = K.cons.w → c.r = c.w) :
    Alters p W K { K with cons := c } where
  proc := rfl
  cpu := rfl
  initproc := rfl
  task := rfl
  stuck ch t hch hp hs := by
    cases ch with
    | proc q => exact absurd rfl (hp q)
    | ticks => cases t <;> exact hs
    | cons => exact hc hch hs
    | _ => exact hs
  pipe := id
  commit := id
  inCommit _ _ := rfl

theorem acquiresleep_turned {l : ℕ} (h : K.acquiresleep p l = some (r, K')) :
    Turned K env p t r K' := by
  unfold acquiresleep at h
  split at h
  · rename_i hl
    exact turned_block h (touches_refl K) rfl hl (fun hk => hk.elim)
  · exact turned_done h (Alters.touches (alters_lock fun _ => rfl))

theorem releasesleep_turned {l : ℕ} (h : K.releasesleep p l = some (r, K')) :
    Turned K env p t r K' :=
  turned_done h (Alters.wakeup (alters_lock fun hl => absurd rfl hl))

theorem beginOp_turned (h : K.beginOp p = some (r, K')) : Turned K env p t r K' := by
  unfold beginOp at h
  split at h
  · rename_i hc
    exact turned_block h (touches_refl K) rfl (.inl hc) (fun hk => hk.elim)
  split at h
  · rename_i hn
    exact turned_block h (touches_refl K) rfl (.inr hn) (fun hk => hk.elim)
  · refine turned_done h (Alters.touches (alters_log (fun _ hs => ?_) id fun _ _ => rfl))
    exact hs.imp id fun hn => by simp only; omega

theorem logWrite_turned {fresh : Bool} (h : K.logWrite p fresh = some (r, K')) :
    Turned K env p t r K' := by
  unfold logWrite at h
  split at h
  · cases h
  split at h
  · cases h
  · refine turned_done h (Alters.touches (alters_log (fun _ hs => ?_) id fun _ _ => rfl))
    exact hs.imp id fun hn => by cases fresh <;> simp <;> omega

theorem endOp_turned (h : K.endOp p = some (r, K')) : Turned K env p t r K' := by
  unfold endOp at h
  split at h
  · cases h
  rename_i hcom
  split at h
  · refine turned_done h (Alters.touches (alters_log (fun _ _ => .inl rfl) (fun hc => ?_)
      fun q hq => ?_))
    · -- nobody was committing, so `p` is the only one now
      have hnone : ∀ q, K.inCommit q ≠ true := fun q hq => hcom (hc.1 q hq)
      have honly : ∀ q, (if q = p then true else K.inCommit q) = true → q = p := by
        intro q hq
        by_contra hne
        exact hnone q (by simpa [hne] using hq)
      exact ⟨fun _ _ => rfl, fun a b ha hb => (honly a ha).trans (honly b hb).symm⟩
    · simp [hq]
  · refine turned_done h (Alters.wakeup (alters_log (fun hl => absurd rfl hl) (fun hc => ?_)
      fun _ _ => rfl))
    exact ⟨fun q hq => hc.1 q hq, hc.2⟩

theorem clearLog_turned (hc : K.CommitOk) (hi : K.inCommit p = true)
    (h : K.clearLog p = some (r, K')) : Turned K env p t r K' :=
  turned_done h (Alters.touches (alters_log (fun _ _ => .inl (hc.1 p hi)) id fun _ _ => rfl))

theorem endCommit_turned (hi : K.inCommit p = true) (h : K.endCommit p = some (r, K')) :
    Turned K env p t r K' := by
  refine turned_done h (Alters.wakeup (alters_log (fun hl => absurd rfl hl) (fun hc => ?_)
    fun q hq => ?_))
  · -- `p` was the one that commits, so nobody is left
    have hnone : ∀ q, (if q = p then false else K.inCommit q) ≠ true := by
      intro q hq
      by_cases hqp : q = p
      · simp [hqp] at hq
      · exact hqp (hc.2 q p (by simpa [hqp] using hq) hi)
    exact ⟨fun q hq => absurd hq (hnone q), fun a b ha => absurd ha (hnone a)⟩
  · simp [hq]

theorem pipealloc_turned {pi : ℕ} (h : K.pipealloc env p pi = some (r, K')) :
    Turned K env p t r K' := by
  unfold pipealloc at h
  split at h
  · exact turned_done h (touches_refl K)
  split at h
  · cases h
  · rename_i hopen
    have hclosed : (K.pipe pi).readopen = false ∧ (K.pipe pi).writeopen = false := by
      simpa using hopen
    refine turned_done h (Alters.touches (alters_pipe (fun _ hs => ?_) (fun _ hs => ?_)
      fun _ => Pipe.sound_fresh _))
    · simp [hclosed.2] at hs
    · simp [hclosed.1] at hs

theorem pipewrite_turned {pi : ℕ} {n : ℤ} {i : ℕ} (h : K.pipewrite env p pi n i = some (r, K')) :
    Turned K env p t r K' := by
  have hspec := Pipe.writeLoop_spec (K.pipe pi) (K.proc p).killed env.src (n.toNat - i) i
  have hsound : (K.pipe pi).Sound →
      ((K.pipe pi).writeLoop (K.proc p).killed env.src (n.toNat - i) i).1.Sound :=
    fun hs => hs.writeLoop
  have hfull := fun hf : (K.pipe pi).Full =>
    Pipe.writeLoop_full hf (K.proc p).killed env.src (n.toNat - i) i
  unfold pipewrite at h
  generalize (K.pipe pi).writeLoop (K.proc p).killed env.src (n.toNat - i) i = out at *
  obtain ⟨x, e⟩ := out
  -- a writer that waits does so on a full pipe, which the loop leaves as it is
  have halt : Alters p {.nread pi} K (K.setPipe pi x) :=
    alters_pipe (fun hr => absurd rfl hr) (fun _ hs => by rwa [show x = K.pipe pi from hfull hs.1])
      hsound
  cases e with
  | fail =>
    obtain rfl : x = K.pipe pi := hspec.2.2
    exact turned_done h (Alters.touches (alters_pipe (fun _ hs => hs) (fun _ hs => hs) id))
  | full j =>
    refine turned_block h halt.wakeup rfl ?_ fun _ => hspec.2.2.2.2
    have hx : x.Full ∧ x.readopen = true := ⟨hspec.2.2.1, hspec.1.trans hspec.2.2.2.1⟩
    simpa [Stuck, Kernel.wakeup, setPipe] using hx
  | done j => exact turned_done h halt.wakeup

theorem piperead_turned {pi : ℕ} {n : ℤ} (h : K.piperead env p pi n = some (r, K')) :
    Turned K env p t r K' := by
  unfold piperead at h
  split at h
  · rename_i hempty
    split at h
    · exact turned_done h (touches_refl K)
    · rename_i hk
      exact turned_block h (touches_refl K) rfl hempty (fun _ => by simpa using hk)
  · rename_i hne
    exact turned_done h (Alters.wakeup (alters_pipe (fun _ hs => absurd hs hne)
      (fun hw => absurd rfl hw) fun hs => hs.readLoop))

theorem pipeclose_turned {pi : ℕ} {writable : Bool}
    (h : K.pipeclose p pi writable = some (r, K')) : Turned K env p t r K' := by
  unfold pipeclose at h
  refine turned_done h (Alters.wakeup (alters_pipe (fun hr hs => ?_) (fun hw hs => ?_)
    fun hs => hs.close writable))
  · cases writable with
    | true => exact absurd rfl hr
    | false => exact hs
  · cases writable with
    | true => exact hs
    | false => exact absurd rfl hw

theorem pauseLoop_turned {n ticks0 : BitVec 32} (h : K.pauseLoop p n ticks0 = some (r, K')) :
    Turned K env p t r K' := by
  unfold pauseLoop at h
  split at h
  · rename_i hlt
    split at h
    · exact turned_done h (touches_refl K)
    · rename_i hk
      exact turned_block h (touches_refl K) rfl hlt (fun _ => by simpa using hk)
  · exact turned_done h (touches_refl K)

theorem consoleread_turned {n target : ℕ} (h : K.consoleread env p n target = some (r, K')) :
    Turned K env p t r K' := by
  have hspec := Cons.readLoop_spec K.cons (K.proc p).killed env.dst target n
  unfold consoleread at h
  generalize K.cons.readLoop (K.proc p).killed env.dst target n = out at *
  obtain ⟨c, e⟩ := out
  have halt : Alters p ∅ K { K with cons := c } :=
    alters_cons fun _ hs => by rw [show c = K.cons from hspec.1 hs]; exact hs
  cases e with
  | fail => exact turned_done h halt.touches
  | wait m =>
    obtain ⟨hrw, hk⟩ := hspec.2 m rfl
    exact turned_block h halt.touches rfl hrw fun _ => hk
  | done m => exact turned_done h halt.touches

/-! ## The turns that change the process table -/

theorem kfork_turned {i : ℕ} (h : K.kfork env p i = some (r, K')) :
    Turned K env p (.kfork i) r K' := by
  unfold kfork at h
  split at h
  · rename_i hi
    split at h
    · rename_i hu
      split at h
      · cases h
        exact .take ⟨i, hi⟩ hu
      · cases h
        exact .drop ⟨i, hi⟩ hu
    · cases h
      exact .goes (touches_refl K) (by simp) trivial
  · exact turned_done h (touches_refl K)

theorem kkill_turned {pid : BitVec 32} {i : ℕ} (h : K.kkill p pid i = some (r, K')) :
    Turned K env p (.kkill pid i) r K' := by
  unfold kkill at h
  split at h
  · rename_i hi
    split at h
    · rename_i hq
      cases h
      exact .hit pid ⟨i, hi⟩ hq
    · cases h
      exact .goes (touches_refl K) (by simp) trivial
  · exact turned_done h (touches_refl K)

theorem zombieChild_eq_some {q : ProcId} (h : K.zombieChild p = some q) :
    (K.proc q).parent = some p ∧ (K.proc q).state = .zombie := by
  simpa using List.find?_some h

theorem zombieChild_eq_none (h : K.zombieChild p = none) (q : ProcId)
    (hq : (K.proc q).parent = some p) : (K.proc q).state ≠ .zombie := by
  have hn := List.find?_eq_none.1 h q (List.mem_finRange q)
  simpa [hq] using hn

theorem kwait_turned {addr : BitVec 32} (h : K.kwait env p addr = some (r, K')) :
    Turned K env p (.kwait addr) r K' := by
  unfold kwait at h
  split at h
  · rename_i q hq
    split at h
    · exact turned_done h (touches_refl K)
    · rename_i ha
      cases h
      refine .reap addr q hq ?_
      by_contra hn
      exact ha (by simpa using hn)
  · rename_i hz
    split at h
    · exact turned_done h (touches_refl K)
    · rename_i hk
      have hk' : (∃ q, (K.proc q).parent = some p) ∧ (K.proc p).killed = false := by
        simpa using hk
      exact turned_block h (touches_refl K) rfl ⟨hk'.1, zombieChild_eq_none hz⟩ (fun _ => hk'.2)

theorem kexit_turned {status : ℤ} (h : K.kexit p status = some (r, K')) :
    Turned K env p (.kexit status) r K' := by
  unfold kexit at h
  split at h
  · cases h
  · rename_i hp
    cases h
    exact .exit status hp

/-- Every turn is one of those listed. -/
theorem act_turned (hc : K.CommitOk)
    (hi : t = .clearLog ∨ t = .endCommit → K.inCommit p = true)
    (h : K.act env p t = some (r, K')) : Turned K env p t r K' := by
  cases t with
  | user => cases h
  | acquiresleep l => exact acquiresleep_turned h
  | releasesleep l => exact releasesleep_turned h
  | beginOp => exact beginOp_turned h
  | logWrite fresh => exact logWrite_turned h
  | endOp => exact endOp_turned h
  | clearLog => exact clearLog_turned hc (hi (.inl rfl)) h
  | endCommit => exact endCommit_turned (hi (.inr rfl)) h
  | pipealloc pi => exact pipealloc_turned h
  | pipewrite pi n i => exact pipewrite_turned h
  | piperead pi n => exact piperead_turned h
  | pipeclose pi writable => exact pipeclose_turned h
  | kfork i => exact kfork_turned h
  | forkParent np pid =>
    cases h
    exact .parent np pid
  | forkRunnable np pid =>
    cases h
    exact .runnable np pid
  | kexit status => exact kexit_turned h
  | kwait addr => exact kwait_turned h
  | kkill pid i => exact kkill_turned h
  | setkilled =>
    cases h
    exact .setkilled
  | pause n => exact pauseLoop_turned h
  | pauseLoop n ticks0 => exact pauseLoop_turned h
  | consoleread n target => exact consoleread_turned h

end Kernel

end Xv6
