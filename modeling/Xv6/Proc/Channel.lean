import Xv6.Proc.Wakeup

/-!
# Pipes as channels

Over every run, what comes out of a pipe is a prefix of what went in, however its readers and
writers take turns and however often the counters wrap around. The history in `sent` and `got` is
the real one: `pipewrite` appends the bytes it has read from the user's memory, `piperead` those it
has written there, and nothing else touches them until the page is used for a new pipe.
-/

namespace Xv6

namespace Pipe

/-- `pipewrite` puts in the bytes that `copyin` has read. -/
theorem writeLoop_sent (p : Pipe) (killed : Bool) (src : ℕ → Option UInt8) (k i : ℕ) :
    ∃ bs : List UInt8, (p.writeLoop killed src k i).1.sent = p.sent ++ bs ∧
    (p.writeLoop killed src k i).1.got = p.got ∧
    (p.writeLoop killed src k i).1.nread = p.nread ∧
    ∀ j (hj : j < bs.length), src (i + j) = some bs[j] := by
  induction k generalizing i p with
  | zero => exact ⟨[], by simp [writeLoop]⟩
  | succ k ih =>
    unfold writeLoop
    split
    · exact ⟨[], by simp⟩
    split
    · exact ⟨[], by simp⟩
    split
    · exact ⟨[], by simp⟩
    · rename_i b hb
      obtain ⟨bs, hsent, hgot, hn, hsrc⟩ := ih (p.put b) (i + 1)
      refine ⟨b :: bs, ?_, hgot, hn, fun j hj => ?_⟩
      · rw [hsent]
        simp [put]
      · cases j with
        | zero => exact hb
        | succ j =>
          rw [show i + (j + 1) = i + 1 + j by omega]
          exact hsrc j (by simpa using hj)

/-- `piperead` puts nothing in. -/
theorem readLoop_sent (p : Pipe) (dst : ℕ → Bool) (k i : ℕ) :
    (p.readLoop dst k i).1.sent = p.sent ∧
    (p.readLoop dst k i).1.nwrite = p.nwrite := by
  induction k generalizing i p with
  | zero => exact ⟨rfl, rfl⟩
  | succ k ih =>
    unfold readLoop
    split
    · exact ⟨rfl, rfl⟩
    split
    · exact ih p.take (i + 1)
    · exact ⟨rfl, rfl⟩

end Pipe

/-- The pipe that a turn is about. -/
def Task.pipe : Task → Option ℕ
  | .pipealloc pi | .pipewrite pi _ _ | .piperead pi _ | .pipeclose pi _ => some pi
  | _ => none

namespace Kernel

variable {K K' : Kernel} {env : Env} {p : ProcId} {t : Task} {r : Ret} {l : Label} {pi : ℕ}

theorem done_pipe {x : ℤ} (h : K.done p x = some (r, K')) : K'.pipe = K.pipe := by
  cases h
  rfl

theorem block_pipe {ch : Chan} (h : K.block p ch t = some (r, K')) : K'.pipe = K.pipe := by
  cases h
  rfl

theorem setPipe_pipe_of_ne {j : ℕ} {x : Pipe} (h : pi ≠ j) :
    (K.setPipe j x).pipe pi = K.pipe pi := by
  simp [setPipe, h]

theorem pauseLoop_pipe {n ticks0 : BitVec 32} (h : K.pauseLoop p n ticks0 = some (r, K')) :
    K'.pipe = K.pipe := by
  unfold pauseLoop at h
  split at h
  · split at h
    · exact done_pipe h
    · exact block_pipe h
  · exact done_pipe h

/-- A turn leaves alone the pipes it is not about. -/
theorem act_pipe (ht : t.pipe ≠ some pi) (h : K.act env p t = some (r, K')) :
    K'.pipe pi = K.pipe pi := by
  cases t with
  | user => cases h
  | acquiresleep j =>
    simp only [act, acquiresleep] at h
    split at h
    · rw [block_pipe h]
    · rw [done_pipe h]
      rfl
  | releasesleep j =>
    simp only [act, releasesleep] at h
    rw [done_pipe h]
    rfl
  | beginOp =>
    simp only [act, beginOp] at h
    split at h
    · rw [block_pipe h]
    split at h
    · rw [block_pipe h]
    · rw [done_pipe h]
  | logWrite fresh =>
    simp only [act, logWrite] at h
    split at h
    · cases h
    split at h
    · cases h
    · rw [done_pipe h]
  | endOp =>
    simp only [act, endOp] at h
    split at h
    · cases h
    split at h
    · rw [done_pipe h]
    · rw [done_pipe h]
      rfl
  | clearLog =>
    simp only [act, clearLog] at h
    rw [done_pipe h]
  | endCommit =>
    simp only [act, endCommit] at h
    rw [done_pipe h]
    rfl
  | pipealloc j =>
    have hj : pi ≠ j := fun he => ht (by rw [he]; rfl)
    simp only [act, pipealloc] at h
    split at h
    · rw [done_pipe h]
    split at h
    · cases h
    · rw [done_pipe h, setPipe_pipe_of_ne hj]
  | pipewrite j n i =>
    have hj : pi ≠ j := fun he => ht (by rw [he]; rfl)
    simp only [act, pipewrite] at h
    split at h
    · rw [done_pipe h, setPipe_pipe_of_ne hj]
    · rw [block_pipe h]
      exact setPipe_pipe_of_ne hj
    · rw [done_pipe h]
      exact setPipe_pipe_of_ne hj
  | piperead j n =>
    have hj : pi ≠ j := fun he => ht (by rw [he]; rfl)
    simp only [act, piperead] at h
    split at h
    · split at h
      · rw [done_pipe h]
      · rw [block_pipe h]
    · rw [done_pipe h]
      exact setPipe_pipe_of_ne hj
  | pipeclose j writable =>
    have hj : pi ≠ j := fun he => ht (by rw [he]; rfl)
    simp only [act, pipeclose] at h
    rw [done_pipe h]
    exact setPipe_pipe_of_ne hj
  | kfork i =>
    simp only [act, kfork] at h
    split at h
    · split at h
      · split at h
        · cases h
          rfl
        · rw [done_pipe h]
          rfl
      · cases h
        rfl
    · rw [done_pipe h]
  | forkParent np pid =>
    cases h
    rfl
  | forkRunnable np pid =>
    cases h
    rfl
  | kexit status =>
    simp only [act, kexit] at h
    split at h
    · cases h
    · cases h
      exact congrFun (leave_objects K p).2.1 pi
  | kwait addr =>
    simp only [act, kwait] at h
    split at h
    · split at h
      · rw [done_pipe h]
      · cases h
        rfl
    · split at h
      · rw [done_pipe h]
      · rw [block_pipe h]
  | kkill pid i =>
    simp only [act, kkill] at h
    split at h
    · split at h
      · rw [done_pipe h]
        rfl
      · cases h
        rfl
    · rw [done_pipe h]
  | setkilled =>
    cases h
    rfl
  | pause n => exact congrFun (pauseLoop_pipe h) pi
  | pauseLoop n ticks0 => exact congrFun (pauseLoop_pipe h) pi
  | consoleread n target =>
    simp only [act, consoleread] at h
    split at h
    · rw [done_pipe h]
    · rw [block_pipe h]
    · rw [done_pipe h]

/-- A step leaves alone the pipes it is not about. -/
theorem step_pipe (hs : Step K l K')
    (hl : ∀ p t env r, l = .turn p t env r → t.pipe ≠ some pi) : K'.pipe pi = K.pipe pi := by
  cases hs with
  | turn p env r _ hc ht =>
    exact act_pipe (K := K.resume p) (p := p) (hl p _ env r rfl) ht
  | consoleintr ch =>
    unfold consoleintr
    split <;> rfl
  | _ => rfl

/-! ## The pipes of a run -/

theorem Turned.sound (ht : Turned K env p t r K') (h : ∀ pi, (K.pipe pi).Sound) :
    ∀ pi, (K'.pipe pi).Sound := by
  cases ht with
  | goes hT hr hplain => exact hT.pipe h
  | blocks hT hch hs hk => exact hT.pipe h
  | exit status hp =>
    intro pi
    have he : ((K.leave p).exitProc p status).pipe pi = K.pipe pi :=
      congrFun (leave_objects K p).2.1 pi
    exact he ▸ h pi
  | _ => exact h

theorem Run.sound {ls : List Label} (h : Run boot ls K) : ∀ pi, (K.pipe pi).Sound := by
  refine (h.invariant (I := fun K => K.Life ∧ ∀ pi, (K.pipe pi).Sound)
    ⟨life_boot, fun _ => RingBuf.tracks_empty _⟩ fun K l K' hK hs => ⟨hK.1.step hs, ?_⟩).2
  cases hs with
  | turn p env r _ hc ht => exact (hK.1.turn ht).sound hK.2
  | consoleintr ch =>
    intro pi
    rw [step_pipe (K := K) (.consoleintr ch) (by simp)]
    exact hK.2 pi
  | _ => exact hK.2

/-- The turn behind a step of a process. -/
theorem turn_of_step (hs : Step K (.turn p t env r) K') :
    (K.resume p).act env p t = some (r, K') := by
  generalize hlab : Label.turn p t env r = lab at hs
  cases hs with
  | turn p' env' r' _ hc ht =>
    obtain ⟨rfl, htask, rfl, rfl⟩ := Label.turn.inj hlab
    rwa [Kernel.turn, ← htask] at ht
  | _ => cases hlab

/-- A turn of `piperead`. -/
theorem piperead_spec {n : ℤ} (h : K.piperead env p pi n = some (r, K')) :
    ∃ bs : List UInt8, (K'.pipe pi).got = (K.pipe pi).got ++ bs ∧
      (K'.pipe pi).sent = (K.pipe pi).sent ∧
      (K'.pipe pi).nread = (K.pipe pi).nread + BitVec.ofNat 32 bs.length ∧
      (∀ j < bs.length, env.dst j = true) ∧
      (r = .val bs.length ∨ bs = [] ∧ (r = .going ∨ r = .val (-1))) ∧
      (0 < n → r = .val 0 → (K.pipe pi).Empty ∧ (K.pipe pi).writeopen = false) := by
  unfold piperead at h
  split at h
  · split at h
    · cases h
      exact ⟨[], by simp⟩
    · cases h
      exact ⟨[], by simp [Kernel.sleep]⟩
  · rename_i hne
    obtain ⟨bs, hgot, hdst, hn, -, -, hret, hempty⟩ := Pipe.readLoop_spec (K.pipe pi)
      env.dst n.toNat 0
    have hsent := (Pipe.readLoop_sent (K.pipe pi) env.dst n.toNat 0).1
    cases h
    have hpipe : (((K.setPipe pi ((K.pipe pi).readLoop env.dst n.toNat 0).1).wakeup
        (some (.nwrite pi))).setTask p .user).pipe pi =
        ((K.pipe pi).readLoop env.dst n.toNat 0).1 := by
      simp [wakeup, setPipe]
    rw [hpipe]
    refine ⟨bs, hgot, hsent, hn, by simpa using hdst, ?_, fun hpos hzero => ?_⟩
    · rcases hret with hret | ⟨-, hnil, hret, -⟩
      · exact .inl (by rw [hret]; simp)
      · exact .inr ⟨hnil, .inr (by rw [hret])⟩
    · have hz : ((K.pipe pi).readLoop env.dst n.toNat 0).2 = 0 := by simpa using hzero
      have hnil : bs = [] := by
        rcases hret with hret | ⟨-, hnil, -⟩
        · rw [hz] at hret
          exact List.eq_nil_of_length_eq_zero (by omega)
        · exact hnil
      have he := hempty hnil (by omega) (by simpa using hz) rfl
      exact ⟨he, by simpa [he] using hne⟩

/-- A turn of `pipewrite`. -/
theorem pipewrite_spec {n : ℤ} {i : ℕ} (h : K.pipewrite env p pi n i = some (r, K')) :
    ∃ bs : List UInt8, (K'.pipe pi).sent = (K.pipe pi).sent ++ bs ∧
      (K'.pipe pi).got = (K.pipe pi).got ∧
      ∀ j (hj : j < bs.length), env.src (i + j) = some bs[j] := by
  obtain ⟨bs, hsent, hgot, -, hsrc⟩ := Pipe.writeLoop_sent (K.pipe pi)
    (K.proc p).killed env.src (n.toNat - i) i
  refine ⟨bs, ?_, ?_, hsrc⟩
  all_goals
    unfold pipewrite at h
    generalize (K.pipe pi).writeLoop (K.proc p).killed env.src (n.toNat - i) i = out at *
    obtain ⟨x, e⟩ := out
    cases e <;> cases h <;> simpa [Kernel.sleep, wakeup, setPipe]

/-- Pipes are channels that lose nothing and keep the order, over every run. -/
theorem pipe_is_fifo {ls : List Label} (h : Run boot ls K) (pi : ℕ) :
    -- what came out is a prefix of what went in, and the counters count what is inside
    (K.pipe pi).got <+: (K.pipe pi).sent ∧
    ((K.pipe pi).nwrite - (K.pipe pi).nread).toNat ≤ pipesize ∧
    (K.pipe pi).got.length + ((K.pipe pi).nwrite - (K.pipe pi).nread).toNat =
      (K.pipe pi).sent.length ∧
    -- `piperead` takes the bytes it has copied out, and returns 0 only at the end of the data
    (∀ p n env r K', Step K (.turn p (.piperead pi n) env r) K' →
      ∃ bs : List UInt8, (K'.pipe pi).got = (K.pipe pi).got ++ bs ∧
        (K'.pipe pi).sent = (K.pipe pi).sent ∧
        (K'.pipe pi).nread = (K.pipe pi).nread + BitVec.ofNat 32 bs.length ∧
        (∀ j < bs.length, env.dst j = true) ∧
        (r = .val bs.length ∨ bs = [] ∧ (r = .going ∨ r = .val (-1))) ∧
        (0 < n → r = .val 0 → (K.pipe pi).Empty ∧ (K.pipe pi).writeopen = false)) ∧
    -- `pipewrite` puts in the bytes it has copied in
    (∀ p n i env r K', Step K (.turn p (.pipewrite pi n i) env r) K' →
      ∃ bs : List UInt8, (K'.pipe pi).sent = (K.pipe pi).sent ++ bs ∧
        (K'.pipe pi).got = (K.pipe pi).got ∧
        ∀ j (hj : j < bs.length), env.src (i + j) = some bs[j]) ∧
    -- closing an end, and whatever is not about the pipe, leaves its bytes alone
    (∀ p writable env r K', Step K (.turn p (.pipeclose pi writable) env r) K' →
      (K'.pipe pi).toRingBuf = (K.pipe pi).toRingBuf ∧ (K'.pipe pi).sent = (K.pipe pi).sent ∧
        (K'.pipe pi).got = (K.pipe pi).got) ∧
    (∀ l K', Step K l K' → (∀ p t env r, l = .turn p t env r → t.pipe ≠ some pi) →
      K'.pipe pi = K.pipe pi) := by
  have hsound : (K.pipe pi).Sound := h.sound pi
  have hsize := RingBuf.Tracks.size hsound (by decide)
  have hle := hsound.length_le
  have hroom := hsound.room
  -- clearing the caller's channel does not touch pipes
  have hres : ∀ p, (K.resume p).pipe = K.pipe := fun _ => rfl
  refine ⟨hsound.order, by omega, by omega, fun p n env r K' hs => ?_,
    fun p n i env r K' hs => ?_, fun p writable env r K' hs => ?_, fun l K' hs hl => step_pipe hs hl⟩
  · have hspec := piperead_spec (turn_of_step hs)
    rwa [hres] at hspec
  · have hspec := pipewrite_spec (turn_of_step hs)
    rwa [hres] at hspec
  · have ht := turn_of_step hs
    simp only [act, pipeclose] at ht
    rw [done_pipe ht]
    cases writable <;> simp [wakeup, setPipe, Pipe.close, hres]

/-- Init makes a pipe and writes the bytes 7, 8, 9 to it. -/
def writeThree (env : Env) : List Move :=
  [.dispatch 0, .call (.pipealloc 0), .turn env, .call (.pipewrite 0 3 0), .turn env]

/-- The theorem at a pipe that holds three bytes. -/
theorem pipe_is_fifo_three : ∃ ls K, Run boot ls K ∧ (K.pipe 0).sent = [7, 8, 9] ∧
    (K.pipe 0).got.length + ((K.pipe 0).nwrite - (K.pipe 0).nread).toNat = 3 := by
  obtain ⟨ls, K, hrun, hK⟩ := exists_run (K := boot)
    (P := fun K => (K.pipe 0).sent = [7, 8, 9])
    (show (moves (writeThree ⟨fun j => some (UInt8.ofNat (7 + j)), fun _ => true, fun _ => true,
      fun _ => 0⟩) boot).any _ = true by decide +kernel)
  have hsent := of_decide_eq_true hK
  refine ⟨ls, K, hrun, hsent, ?_⟩
  rw [(pipe_is_fifo hrun 0).2.2.1, hsent]
  rfl

end Kernel

end Xv6
