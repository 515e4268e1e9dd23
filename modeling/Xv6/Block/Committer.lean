import Xv6.Block.Share

/-!
# What the committing thread does

The programs of `log.c` that run inside `commit`, under interference. What the committing thread
knows is `CommitSt`: the contents `D` of the device, the contents `V` last logged, the list of
logged blocks and the list `P` of those still pinned; `Holds` is what any thread knows of the
buffers it has locked.
-/

namespace Xv6

open Conc BlockSt

variable {ls : ℕ} {t : Tid} {s s' : BlockSt} {i : BufId} {α β : Type}

/-! ## The duty of a thread -/

variable (ls) in
/-- The duty of thread `t`. The sections of the block layer may sleep, and `bget` and `log_write`
may panic. -/
def duty (t : Tid) : Duty BlockSt where
  rely s s' := (Inv ls s → Inv ls s') ∧ View ls t s s'
  guar := Guar ls t
  inv _ := True
  mayBlock := True
  mayPanic := True

theorem duty_rules : Pool.Rules (duty ls) (Inv ls) where
  rely_refl t s := ⟨id, .refl t s⟩
  rely_trans _ _ _ _ h h' := ⟨h'.1 ∘ h.1, h.2.trans h'.2⟩
  guar_rely _ _ _ _ hne hI hg := ⟨fun hI => (hg hI).1, (hg hI).2.1 _ hne.symm⟩
  guar_inv _ _ _ hI hg := (hg hI).1

variable (ls) in
/-- An assertion of thread `t` that the other threads cannot falsify. -/
def Stable (t : Tid) (P : BlockSt → Prop) : Prop :=
  ∀ s s', Inv ls s → Inv ls s' → View ls t s s' → P s → P s'

/-- A section, from an assertion. -/
theorem duty_act {P : BlockSt → Prop} {f : Action BlockSt β} {k : β → Prog BlockSt α}
    {Q : α → BlockSt → Prop} (hst : Stable ls t P) (hI : Inv ls s) (hP : P s)
    (h : ∀ s b s', Inv ls s → P s → f t s = .ok b s' →
      Guar ls t s s' ∧ (Inv ls s' → WP (duty ls t) t (k b) Q s')) :
    WP (duty ls t) t (.act f k) Q s := by
  intro s₁ hs
  have hI₁ := hs.1 hI
  refine ⟨trivial, ?_⟩
  cases hf : f t s₁ with
  | ok b s₂ =>
    obtain ⟨hg, hk⟩ := h s₁ b s₂ hI₁ (hst s s₁ hI hI₁ hs.2 hP) hf
    exact ⟨hg, hk (hg hI₁).1⟩
  | block => trivial
  | panic _ => trivial

theorem duty_ret {P : BlockSt → Prop} {a : α} {Q : α → BlockSt → Prop} (hst : Stable ls t P)
    (hI : Inv ls s) (hP : P s) (h : ∀ s, Inv ls s → P s → Q a s) :
    WP (duty ls t) t (.ret a) Q s := by
  intro s₁ hs
  exact ⟨trivial, h s₁ (hs.1 hI) (hst s s₁ hI (hs.1 hI) hs.2 hP)⟩

theorem duty_bind {p : Prog BlockSt α} {k : α → Prog BlockSt β} {Q : β → BlockSt → Prop}
    (h : WP (duty ls t) t p (fun a s => WP (duty ls t) t (k a) Q s) s) :
    WP (duty ls t) t (p >>= k) Q s :=
  WP.bind (duty_rules.rely_refl t) h

theorem Guar.refl (t : Tid) (s : BlockSt) : Guar ls t s s := fun hI =>
  ⟨hI, fun u _ => .refl u s, fun hc hc' => by rw [hc] at hc'; cases hc'⟩

/-! ## Buffers held -/

/-- Thread `t` holds the buffers of `H`, each with its block and contents. -/
def Holds (t : Tid) (H : List (BufId × ℕ × Block)) (s : BlockSt) : Prop :=
  ∀ e ∈ H, (s.buf e.1).lock = some t ∧ (s.buf e.1).valid = true ∧ s.Carries e.1 rootdev e.2.1 ∧
    (s.buf e.1).data = e.2.2

theorem Holds.calm {H : List (BufId × ℕ × Block)} {X : BufId → Prop} (h : Holds t H s)
    (hc : Calm ls t X s s') (hX : ∀ e ∈ H, ¬ X e.1) : Holds t H s' := by
  intro e he
  obtain ⟨hl, hv, hca, hd⟩ := h e he
  obtain ⟨hs, -⟩ := hc.held e.1 (hX e he) hl
  exact ⟨hs.lock.trans hl, hs.valid.trans hv, ⟨hs.dev.trans hca.1, hs.blockno.trans hca.2⟩,
    hs.data.trans hd⟩

theorem Holds.mono {H H' : List (BufId × ℕ × Block)} (h : Holds t H s) (hs : ∀ e ∈ H', e ∈ H) :
    Holds t H' s :=
  fun e he => h e (hs e he)

variable (ls) in
/-- An assertion about what a committing thread can count on. -/
def Kept (t : Tid) (C : BlockSt → Prop) : Prop :=
  ∀ s s', (s.aux.committer = some t → Steady ls s s') → C s → C s'

section Cache

variable {H : List (BufId × ℕ × Block)} {C : BlockSt → Prop} {b : ℕ}

/-- **`bread`, shared**: the thread gets one more buffer. -/
theorem bread_share {Q : BufId → BlockSt → Prop} (hC : Kept ls t C) (hI : Inv ls s)
    (hH : Holds t H s) (hs : C s) (hb : b < 2 ^ 31)
    (hQ : ∀ i x s', Inv ls s' → Holds t ((i, b, x) :: H) s' → (∀ e ∈ H, e.1 ≠ i) → C s' → Q i s') :
    WP (duty ls t) t (bread rootdev b) Q s := by
  unfold bread bget
  simp only [Prog.lift_bind, Prog.act_bind, Prog.ret_bind, Prog.pure_eq]
  have hstable : ∀ s s', View ls t s s' → Holds t H s ∧ C s → Holds t H s' ∧ C s' :=
    fun s s' hv h => ⟨h.1.calm hv.calm fun _ _ => id, hC s s' hv.calm.commit h.2⟩
  refine duty_act (P := fun s => Holds t H s ∧ C s) (fun s s' _ _ => hstable s s') hI ⟨hH, hs⟩ ?_
  rintro s₀ i s₁ hI₀ ⟨hH₀, hs₀⟩ h₁
  obtain ⟨hloc₁, hcalm₁, hu₁, hc₁⟩ := bgetRef_local hI₀ hb h₁
  refine ⟨hloc₁.guar, fun hI₁ => ?_⟩
  refine duty_act (P := fun s => (Holds t H s ∧ C s) ∧ t ∈ s.aux.users i ∧ s.Carries i rootdev b)
    (fun s s' _ _ hv h => ⟨hstable s s' hv h.1, hv.mem_users h.2.1, ?_⟩) hI₁
    ⟨⟨hH₀.calm hcalm₁ fun _ _ => id, hC _ _ hcalm₁.commit hs₀⟩, hu₁, hc₁⟩ ?_
  · exact ⟨(hv.block i h.2.1).1.trans h.2.2.1, (hv.block i h.2.1).2.trans h.2.2.2⟩
  rintro s₀ _ s₂ hI₀ ⟨⟨hH₀, hs₀⟩, hu₀, hc₀⟩ h₂
  obtain ⟨hloc₂, hcalm₂, hl₂, hc₂, hfree⟩ := acquireBuf_local hI₀ hu₀ hc₀ h₂
  -- the lock was free, so the buffer is not among those already held
  have hnew : ∀ e ∈ H, e.1 ≠ i := fun e he hei => by
    have := (hH₀ e he).1
    rw [hei, hfree] at this
    cases this
  refine ⟨hloc₂.guar, fun hI₂ => ?_⟩
  refine duty_act (P := fun s => (Holds t H s ∧ C s) ∧ (s.buf i).lock = some t ∧ s.Carries i rootdev b)
    (fun s s' _ _ hv h => ⟨hstable s s' hv h.1, ?_⟩) hI₂
    ⟨⟨hH₀.calm hcalm₂ fun _ _ => id, hC _ _ hcalm₂.commit hs₀⟩, hl₂, hc₂⟩ ?_
  · have hsame := (hv.calm.held i id h.2.1).1
    exact ⟨hsame.lock.trans h.2.1, hsame.dev.trans h.2.2.1, hsame.blockno.trans h.2.2.2⟩
  rintro s₀ _ s₃ hI₀ ⟨⟨hH₀, hs₀⟩, hl₀, hc₀⟩ h₃
  obtain ⟨hloc₃, hcalm₃, hl₃, hc₃, hv₃⟩ := fillBuf_local hI₀ hl₀ hc₀ h₃
  refine ⟨hloc₃.guar, fun hI₃ => ?_⟩
  have hH₃ : Holds t ((i, b, (s₃.buf i).data) :: H) s₃ := by
    intro e he
    rcases List.mem_cons.1 he with rfl | he
    · exact ⟨hl₃, hv₃, hc₃, rfl⟩
    · exact hH₀.calm hcalm₃ (fun e he => hnew e he) e he
  refine duty_ret (P := fun s => Holds t ((i, b, (s₃.buf i).data) :: H) s ∧ C s)
    (fun s s' _ _ hv h => ⟨h.1.calm hv.calm fun _ _ => id, hC s s' hv.calm.commit h.2⟩) hI₃
    ⟨hH₃, hC _ _ hcalm₃.commit hs₀⟩ ?_
  exact fun s' hI' h => hQ i _ s' hI' h.1 hnew h.2

/-- **`brelse`, shared**: the thread keeps the other buffers. -/
theorem brelse_share {Q : Unit → BlockSt → Prop} (hC : Kept ls t C) (hI : Inv ls s)
    (hH : Holds t H s) (hi : ∀ e ∈ H, e.1 ≠ i) (hs : C s)
    (hQ : ∀ s', Inv ls s' → Holds t H s' → C s' → Q () s') :
    WP (duty ls t) t (brelse i) Q s := by
  unfold brelse
  simp only [Prog.lift_bind]
  have hstable : ∀ s s', View ls t s s' → Holds t H s ∧ C s → Holds t H s' ∧ C s' :=
    fun s s' hv h => ⟨h.1.calm hv.calm fun _ _ => id, hC s s' hv.calm.commit h.2⟩
  refine duty_act (P := fun s => Holds t H s ∧ C s) (fun s s' _ _ => hstable s s') hI ⟨hH, hs⟩ ?_
  rintro s₀ _ s₁ hI₀ ⟨hH₀, hs₀⟩ h₁
  obtain ⟨hloc₁, hcalm₁, hu₁, hl₁⟩ := releaseBuf_local hI₀ h₁
  refine ⟨hloc₁.guar, fun hI₁ => ?_⟩
  refine duty_act (P := fun s => (Holds t H s ∧ C s) ∧ t ∈ s.aux.users i ∧ (s.buf i).lock ≠ some t)
    (fun s s' _ _ hv h => ⟨hstable s s' hv h.1, hv.mem_users h.2.1, fun hl => h.2.2 (hv.free i hl)⟩) hI₁
    ⟨⟨hH₀.calm hcalm₁ hi, hC _ _ hcalm₁.commit hs₀⟩, hu₁, by rw [hl₁]; simp⟩ ?_
  rintro s₀ _ s₂ hI₀ ⟨⟨hH₀, hs₀⟩, hu₀, hl₀⟩ h₂
  obtain ⟨hloc₂, hcalm₂⟩ := bput_local hI₀ hu₀ hl₀ h₂
  refine ⟨hloc₂.guar, fun hI₂ => ?_⟩
  refine duty_ret (P := fun s => Holds t H s ∧ C s) (fun s s' _ _ => hstable s s') hI₂
    ⟨hH₀.calm hcalm₂ fun _ _ => id, hC _ _ hcalm₂.commit hs₀⟩ ?_
  exact fun s' hI' h => hQ s' hI' h.1 h.2

end Cache

/-! ## The device under commit -/

/-- What the committing thread `t` knows: the logged blocks `L`, those of them still pinned `P`, the
contents `D` of the device and the contents `V` last logged. -/
structure CommitSt (ls : ℕ) (t : Tid) (L P : List ℕ) (D V : ℕ → Block) (s : BlockSt) : Prop where
  committer : s.aux.committer = some t
  lh : s.lh = L
  disk : ∀ b, b < 2 ^ 31 → blockAt s.disk b = D b
  latest : s.aux.latest = V
  pins : ∀ b ∈ P, ∃ i, s.Carries i rootdev b ∧ s.aux.pinned i = true
  only : ∀ i, s.aux.pinned i = true → (s.buf i).blockno ∈ P
  sync : LogSync ls s

variable {L P : List ℕ} {D V : ℕ → Block} {b : ℕ} {x : Block} {H : List (BufId × ℕ × Block)}

theorem Steady.pinned_iff (h : Steady ls s s') {P : List ℕ}
    (hp : ∀ b ∈ P, ∃ i, s.Carries i rootdev b ∧ s.aux.pinned i = true)
    (ho : ∀ i, s.aux.pinned i = true → (s.buf i).blockno ∈ P) :
    (∀ b ∈ P, ∃ i, s'.Carries i rootdev b ∧ s'.aux.pinned i = true) ∧
      ∀ i, s'.aux.pinned i = true → (s'.buf i).blockno ∈ P := by
  refine ⟨fun b hb => ?_, fun i hi => ?_⟩
  · obtain ⟨i, hc, hi⟩ := hp b hb
    obtain ⟨hd, hn⟩ := h.pins i hi
    exact ⟨i, ⟨hd.trans hc.1, hn.trans hc.2⟩, by rw [h.pinned]; exact hi⟩
  · rw [h.pinned] at hi
    rw [(h.pins i hi).2]
    exact ho i hi

theorem CommitSt.kept : Kept ls t (CommitSt ls t L P D V) := by
  intro s s' hst h
  have hst := hst h.committer
  obtain ⟨hp, ho⟩ := hst.pinned_iff h.pins h.only
  refine ⟨hst.committer.trans h.committer, hst.lh.trans h.lh, ?_, hst.latest.trans h.latest, hp, ho,
    hst.logSync h.sync⟩
  rw [hst.disk]
  exact h.disk

/-- The committing thread is about to write `x` to block `b` from buffer `i`: `n` of the two
sectors are on the device. -/
structure Storing (ls : ℕ) (t : Tid) (L P : List ℕ) (D V : ℕ → Block) (i : BufId) (b : ℕ) (x : Block)
    (n : ℕ) (s : BlockSt) : Prop where
  committer : s.aux.committer = some t
  lh : s.lh = L
  disk : ∀ c, c < 2 ^ 31 → c ≠ b → blockAt s.disk c = D c
  sector : ∀ h < n, half (blockAt s.disk b) h = half x h
  latest : s.aux.latest = V
  pins : ∀ b ∈ P, ∃ i, s.Carries i rootdev b ∧ s.aux.pinned i = true
  only : ∀ i, s.aux.pinned i = true → (s.buf i).blockno ∈ P
  sync : ∀ j, j ≠ i → (s.buf j).valid = true → InLog ls (s.buf j).blockno →
    (s.buf j).data = blockAt s.disk (s.buf j).blockno

theorem Storing.kept {n : ℕ} : Kept ls t (Storing ls t L P D V i b x n) := by
  intro s s' hst h
  have hst := hst h.committer
  obtain ⟨hp, ho⟩ := hst.pinned_iff h.pins h.only
  refine ⟨hst.committer.trans h.committer, hst.lh.trans h.lh, ?_, ?_, hst.latest.trans h.latest, hp,
    ho, fun j hj hv hl => ?_⟩
  · rw [hst.disk]
    exact h.disk
  · rw [hst.disk]
    exact h.sector
  · rw [hst.disk]
    rcases hst.fresh j hv hl with ⟨hv₀, hno, hd⟩ | hd
    · rw [hd, hno]
      exact h.sync j hj hv₀ (hno ▸ hl)
    · exact hd

/-- With both sectors written, the block is stored. -/
theorem Storing.stored (h : Storing ls t L P D V i b x 2 s) (hH : Holds t [(i, b, x)] s) :
    CommitSt ls t L P (Function.update D b x) V s := by
  obtain ⟨-, -, hc, hd⟩ := hH _ (List.mem_singleton.2 rfl)
  simp only at hc hd
  have hx : blockAt s.disk b = x := block_ext (h.sector 0 (by omega)) (h.sector 1 (by omega))
  refine ⟨h.committer, h.lh, fun c hc => ?_, h.latest, h.pins, h.only, fun j hv hl => ?_⟩
  · by_cases hcb : c = b
    · subst hcb
      rw [hx, Function.update_self]
    · rw [Function.update_of_ne hcb]
      exact h.disk c hc hcb
  · by_cases hji : j = i
    · subst hji
      rw [hd, hc.2, hx]
    · exact h.sync j hji hv hl

theorem kept_and_holds {C : BlockSt → Prop} (hC : Kept ls t C) :
    Stable ls t fun s => Holds t H s ∧ C s :=
  fun s s' _ _ hv h => ⟨h.1.calm hv.calm fun _ _ => id, hC s s' hv.calm.commit h.2⟩

/-- The committing thread `t` changes the contents of a buffer `i` it has locked, the block of
that buffer on the device, or the pin of the buffer. -/
structure CommitStep (ls : ℕ) (t : Tid) (i : BufId) (s s' : BlockSt) : Prop where
  committer : s.aux.committer = some t
  lock : (s.buf i).lock = some t
  rest : s' = { s with
    disk := s'.disk, buf := s'.buf, aux := { s.aux with pinned := s'.aux.pinned } }
  other : ∀ j, j ≠ i → s'.buf j = s.buf j ∧ s'.aux.pinned j = s.aux.pinned j
  same : (s'.buf i).lock = (s.buf i).lock ∧ (s'.buf i).valid = (s.buf i).valid ∧
    (s'.buf i).dev = (s.buf i).dev ∧ (s'.buf i).blockno = (s.buf i).blockno
  refs : (s'.buf i).refcnt = (s.aux.users i).length + if s'.aux.pinned i then 1 else 0
  pin : s'.aux.pinned i = true → s.aux.pinned i = true
  data : Home ls (s.buf i).blockno → (s'.buf i).data = s.aux.latest (s.buf i).blockno
  disk : ∀ c, c < 2 ^ 31 → c ≠ (s.buf i).blockno → blockAt s'.disk c = blockAt s.disk c
  unlogged : (s.buf i).blockno ∉ s.lh → Home ls (s.buf i).blockno → s'.disk = s.disk
  logged : (s.buf i).blockno ∈ s.lh → s'.aux.pinned i = true ∨
    blockAt s'.disk (s.buf i).blockno = s.aux.latest (s.buf i).blockno

namespace CommitStep

variable (h : CommitStep ls t i s s')

include h

theorem lh : s'.lh = s.lh := by rw [h.rest]

theorem users : s'.aux.users = s.aux.users := by rw [h.rest]

theorem latest : s'.aux.latest = s.aux.latest := by rw [h.rest]

theorem committing : s'.committing = s.committing := by rw [h.rest]

theorem carries (j : BufId) (b : ℕ) : s'.Carries j rootdev b ↔ s.Carries j rootdev b := by
  by_cases hji : j = i
  · subst hji
    rw [Carries, Carries, h.same.2.2.1, h.same.2.2.2]
  · exact Carries.of_buf_eq (h.other j hji).1

theorem inv (hI : Inv ls s) : Inv ls s' := by
  have hc := hI.committing_of_committer h.committer
  have hca : s.Carries i rootdev (s.buf i).blockno := hI.carries (hI.users_ne_nil h.lock)
  refine ⟨⟨fun j k b hj hk => ?_, ?_⟩, fun j hj => ?_, fun j => ?_, fun j u hj => ?_, fun j hj => ?_,
    fun j hv hh => ?_, fun b hb hn => ?_, fun b hb => ?_, ?_, ?_, fun hn => ?_, ?_⟩
  · exact hI.wf.uniq j k b ((h.carries j b).1 hj) ((h.carries k b).1 hk)
  · rw [h.rest]
    exact hI.wf.mem_lru
  · rw [h.users] at hj
    by_cases hji : j = i
    · subst hji
      rw [h.same.2.1] at hj
      rw [h.same.2.2.1, h.same.2.2.2]
      exact hI.used j hj
    · rw [(h.other j hji).1] at hj ⊢
      exact hI.used j hj
  · rw [h.users]
    by_cases hji : j = i
    · subst hji
      exact h.refs
    · rw [(h.other j hji).1, (h.other j hji).2]
      exact hI.refs j
  · rw [h.users]
    by_cases hji : j = i
    · subst hji
      exact hI.locked j u (h.same.1 ▸ hj)
    · rw [(h.other j hji).1] at hj
      exact hI.locked j u hj
  · rw [h.lh]
    by_cases hji : j = i
    · subst hji
      rw [h.same.2.1, h.same.2.2.2]
      exact hI.pin j (h.pin hj)
    · rw [(h.other j hji).1]
      exact hI.pin j ((h.other j hji).2 ▸ hj)
  · rw [h.latest]
    by_cases hji : j = i
    · subst hji
      rw [h.same.2.2.2] at hh ⊢
      exact h.data hh
    · rw [(h.other j hji).1] at hv hh ⊢
      exact hI.data j hv hh
  · rw [h.lh] at hn
    rw [h.latest, ← hI.unlogged b hb hn]
    by_cases hbi : b = (s.buf i).blockno
    · subst hbi
      rw [h.unlogged hn hb]
    · exact h.disk b hb.1 hbi
  · rw [h.lh] at hb
    rw [h.latest, h.committing]
    have hh := (hI.logged b hb).1
    refine ⟨hh, ?_⟩
    by_cases hbi : b = (s.buf i).blockno
    · subst hbi
      refine (h.logged hb).imp (fun hp => ⟨i, (h.carries i _).2 hca, hp⟩) fun hd => ⟨hc, hd⟩
    · rw [h.disk b hh.1 hbi]
      refine (hI.logged b hb).2.imp_left ?_
      rintro ⟨j, hj, hp⟩
      have hji : j ≠ i := by
        rintro rfl
        exact hbi hj.2.symm
      exact ⟨j, (h.carries j b).2 hj, (h.other j hji).2 ▸ hp⟩
  · rw [h.lh]
    exact hI.nodup
  · rw [h.lh]
    exact hI.room
  · rw [h.committing, hc] at hn
    cases hn
  · rw [h.rest]
    exact hI.busy

theorem view {u : Tid} (hut : u ≠ t) : View ls u s s' := by
  have hcu : s.aux.committer ≠ some u := fun hc => by
    rw [h.committer] at hc
    exact hut (Option.some.inj hc).symm
  have hlu : (s.buf i).lock ≠ some u := fun hl => by
    rw [h.lock] at hl
    exact hut (Option.some.inj hl).symm
  refine ⟨⟨fun j _ hj => ⟨?_, by rw [h.latest]⟩, fun hc => absurd hc hcu⟩, fun j => by rw [h.users],
    fun j _ => ?_, fun j hj => ?_⟩
  · have hji : j ≠ i := by
      rintro rfl
      exact hlu hj
    rw [(h.other j hji).1]
    exact .refl _
  · by_cases hji : j = i
    · subst hji
      exact h.same.2.2
    · rw [(h.other j hji).1]
      exact ⟨rfl, rfl⟩
  · by_cases hji : j = i
    · subst hji
      exact absurd (h.same.1 ▸ hj) hlu
    · rw [(h.other j hji).1] at hj
      exact hj

theorem guar : Guar ls t s s' := fun hI => by
  refine ⟨h.inv hI, fun _ hu => h.view hu, fun hc hc' => ?_⟩
  rw [h.committing, hc] at hc'
  cases hc'

end CommitStep

/-- The committing thread may write `x` to block `b`: it is a log block, or a pinned block and `x`
its latest contents. -/
def MayStore (ls : ℕ) (P : List ℕ) (V : ℕ → Block) (b : ℕ) (x : Block) : Prop :=
  InLog ls b ∨ b ∈ P ∧ x = V b

/-- The buffer of a block that is still pinned is pinned. -/
theorem pinned_of_mem (hI : Inv ls s) (hpins : ∀ b ∈ P, ∃ i, s.Carries i rootdev b ∧
    s.aux.pinned i = true) (hc : s.Carries i rootdev b) (hb : b ∈ P) : s.aux.pinned i = true := by
  obtain ⟨j, hj, hp⟩ := hpins b hb
  rw [hI.wf.uniq i j b hc hj]
  exact hp

theorem MayStore.data (h : MayStore ls P V b x) (hb : Home ls b) : x = V b :=
  h.elim (fun hl => absurd hl hb.2) And.right

/-- `setBufData` by the committing thread. -/
theorem setBufData_commit {y : Block} (hI : Inv ls s) (hH : Holds t [(i, b, x)] s)
    (hs : CommitSt ls t L P D V s) (hm : MayStore ls P V b y) :
    CommitStep ls t i s (s.setBuf i { s.buf i with data := y }) := by
  obtain ⟨hl, -, hca, -⟩ := hH _ (List.mem_singleton.2 rfl)
  simp only at hl hca
  refine ⟨hs.committer, hl, rfl, fun j hj => by simp [setBuf, hj], by simp, ?_,
    fun hp => hp, fun hh => ?_, fun _ _ _ => rfl, fun _ _ => rfl, fun hb => ?_⟩
  · rw [setBuf_buf_self]
    exact hI.refs i
  · rw [hca.2] at hh ⊢
    rw [hs.latest]
    simpa using hm.data hh
  · refine (hI.logged _ hb).2.imp ?_ And.right
    rintro ⟨j, hj, hp⟩
    rw [hca.2] at hj
    rwa [hI.wf.uniq i j b hca hj]

/-- `diskWrite` by the committing thread. -/
theorem diskWrite_commit {n : ℕ} (hn : n < 2) (hI : Inv ls s) (hH : Holds t [(i, b, x)] s)
    (hs : Storing ls t L P D V i b x n s) (hm : MayStore ls P V b x) :
    CommitStep ls t i s { s with
      disk := writeSector s.disk (s.buf i).blockno n (half (s.buf i).data n) } := by
  obtain ⟨hl, hv, hca, hd⟩ := hH _ (List.mem_singleton.2 rfl)
  simp only at hl hv hca hd
  have hlt := (hI.used i (.inl hv)).2
  have hpin : Home ls b → s.aux.pinned i = true := fun hb =>
    pinned_of_mem hI hs.pins hca (hm.resolve_left hb.2).1
  refine ⟨hs.committer, hl, rfl, fun j _ => ⟨rfl, rfl⟩, ⟨rfl, rfl, rfl, rfl⟩, hI.refs i, fun hp => hp,
    fun hh => hI.data i hv hh, fun c hc hne => ?_, fun hn' hh => ?_, fun hb => .inl ?_⟩
  · exact blockAt_writeSector_of_ne hlt hc hn hne
  · rw [hca.2] at hh hn'
    have := (hI.pin i (hpin hh)).2
    rw [hca.2] at this
    exact absurd this hn'
  · rw [hca.2] at hb
    exact hpin (hI.logged b hb).1

/-- **Store and write, by the committing thread**: one block of the device changes. -/
theorem store_share {y : Block} {k : Unit → Prog BlockSt α} {Q : α → BlockSt → Prop}
    {K : List (BufId × ℕ × Block)} (hI : Inv ls s) (hH : Holds t H s) (hi : (i, b, y) ∈ H)
    (hs : CommitSt ls t L P D V s) (hm : MayStore ls P V b x)
    (hK : ∀ e ∈ K, e ∈ H ∧ e.1 ≠ i ∨ e = (i, b, x))
    (hQ : ∀ s', Inv ls s' → Holds t K s' → CommitSt ls t L P (Function.update D b x) V s' →
      WP (duty ls t) t (k ()) Q s') :
    WP (duty ls t) t (.act (setBufData i x) fun _ => bwrite i >>= k) Q s := by
  unfold bwrite
  simp only [Prog.act_bind, Prog.ret_bind, Prog.lift]
  -- the buffers held besides the one being written
  let R : List (BufId × ℕ × Block) := (i, b, x) :: H.filter fun e => e.1 ≠ i
  have hR : ∀ {s s' : BlockSt}, (∀ j, j ≠ i → s'.buf j = s.buf j) → Holds t H s →
      (s'.buf i).lock = some t ∧ (s'.buf i).valid = true ∧ s'.Carries i rootdev b ∧
        (s'.buf i).data = x → Holds t R s' := by
    intro s s' hother hH hi e he
    rcases List.mem_cons.1 he with rfl | he
    · exact hi
    · obtain ⟨he, hne⟩ := List.mem_filter.1 he
      have hne : e.1 ≠ i := by simpa using hne
      rw [hother e.1 hne, Carries.of_buf_eq (hother e.1 hne)]
      exact hH e he
  have hRi : ∀ {s}, Holds t R s → Holds t [(i, b, x)] s := fun h =>
    h.mono fun e he => by simp [R, List.mem_singleton.1 he]
  refine duty_act (kept_and_holds CommitSt.kept) hI ⟨hH, hs⟩ ?_
  rintro s₀ _ s₁ hI₀ ⟨hH₀, hs₀⟩ h₁
  obtain ⟨hl₀, hv₀, hc₀, -⟩ := hH₀ _ hi
  obtain rfl : s₀.setBuf i { s₀.buf i with data := x } = s₁ := by simpa [setBufData] using h₁
  have hstep := setBufData_commit hI₀ (hH₀.mono fun e he => List.mem_singleton.1 he ▸ hi) hs₀ hm
  refine ⟨hstep.guar, fun hI₁ => ?_⟩
  have hS₁ : Storing ls t L P D V i b x 0 (s₀.setBuf i { s₀.buf i with data := x }) := by
    refine ⟨hs₀.committer, hs₀.lh, fun c hc _ => hs₀.disk c hc, fun h hh => absurd hh (by omega),
      hs₀.latest, fun c hc => ?_, fun j hj => ?_, fun j hj hv hl => ?_⟩
    · obtain ⟨j, hj, hp⟩ := hs₀.pins c hc
      exact ⟨j, (hstep.carries j c).2 hj, hp⟩
    · have := hs₀.only j hj
      by_cases hji : j = i
      · subst hji
        simpa using this
      · rwa [setBuf_buf_of_ne _ _ hji]
    · rw [setBuf_buf_of_ne _ _ hj] at hv hl ⊢
      exact hs₀.sync j hv hl
  have hH₁ : Holds t R (s₀.setBuf i { s₀.buf i with data := x }) :=
    hR (fun j hj => setBuf_buf_of_ne _ _ hj) hH₀
      ⟨by simpa using hl₀, by simpa using hv₀, (hstep.carries i b).2 hc₀, by simp⟩
  refine duty_act (kept_and_holds Storing.kept) hI₁ ⟨hH₁, hS₁⟩ ?_
  rintro s₂ _ s₃ hI₂ ⟨hH₂, hS₂⟩ h₂
  obtain rfl : s₂ = s₃ := by
    have := (hRi hH₂ _ (List.mem_singleton.2 rfl)).1
    simpa [checkHolding, this] using h₂
  refine ⟨.refl t _, fun hI₃ => ?_⟩
  -- the two sectors
  have hwrite : ∀ {n s}, n < 2 → Inv ls s → Holds t R s → Storing ls t L P D V i b x n s →
      Guar ls t s { s with disk := writeSector s.disk (s.buf i).blockno n (half (s.buf i).data n) } ∧
      Holds t R { s with disk := writeSector s.disk (s.buf i).blockno n (half (s.buf i).data n) } ∧
      Storing ls t L P D V i b x (n + 1)
        { s with disk := writeSector s.disk (s.buf i).blockno n (half (s.buf i).data n) } := by
    intro n s hn hI hH hS
    have hstep := diskWrite_commit hn hI (hRi hH) hS hm
    obtain ⟨-, hv, hc, hd⟩ := hRi hH _ (List.mem_singleton.2 rfl)
    simp only at hv hc hd
    have hlt : b < 2 ^ 31 := hc.2 ▸ (hI.used i (.inl hv)).2
    refine ⟨hstep.guar, hH, hS.committer, hS.lh, fun c hc' hne => ?_, fun h hh => ?_, hS.latest, hS.pins,
      hS.only, fun j hj hv' hl => ?_⟩
    · rw [hc.2, blockAt_writeSector_of_ne hlt hc' hn hne]
      exact hS.disk c hc' hne
    · simp only [hc.2, hd]
      rw [half_blockAt_writeSector hlt hlt hn (by omega)]
      split
      · rename_i he
        rw [he.2]
      · exact hS.sector h (by omega)
    · have hno : (s.buf j).blockno ≠ b := fun he => by
        refine hj (hI.wf.uniq j i b ⟨(hI.used j (.inl hv')).1, he⟩ hc)
      simp only [hc.2]
      rw [blockAt_writeSector_of_ne hlt (hI.used j (.inl hv')).2 hn hno]
      exact hS.sync j hj hv' hl
  refine duty_act (kept_and_holds Storing.kept) hI₃ ⟨hH₂, hS₂⟩ ?_
  rintro s₄ _ s₅ hI₄ ⟨hH₄, hS₄⟩ h₄
  obtain ⟨hg₄, hH₅, hS₅⟩ := hwrite (by omega) hI₄ hH₄ hS₄
  obtain rfl := (Outcome.ok.inj h₄).2
  refine ⟨hg₄, fun hI₅ => duty_act (kept_and_holds Storing.kept) hI₅ ⟨hH₅, hS₅⟩ ?_⟩
  rintro s₆ _ s₇ hI₆ ⟨hH₆, hS₆⟩ h₆
  obtain ⟨hg₆, hH₇, hS₇⟩ := hwrite (by omega) hI₆ hH₆ hS₆
  obtain rfl := (Outcome.ok.inj h₆).2
  refine ⟨hg₆, fun hI₇ => hQ _ hI₇ (hH₇.mono fun e he => ?_) ?_⟩
  · rcases hK e he with ⟨he, hne⟩ | rfl
    · exact List.mem_cons_of_mem _ (List.mem_filter.2 ⟨he, by simpa using hne⟩)
    · exact List.mem_cons_self
  · exact hS₇.stored (hRi hH₇)

end Xv6
