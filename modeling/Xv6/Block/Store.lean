import Xv6.Block.Commit
import Xv6.Block.Frame

/-!
# The buffer cache and the log refine a block store

Callers of the block layer run `begin_op`, `bread`, `log_write`, `brelse` and `end_op` in any
interleaving (`Call`, `body`). What they see is a plain block store, the auxiliary variable
`latest`: it starts as the contents of the device, `log_write` stores to it, and `bread` reads from
it (`cache_refines_store`).
-/

namespace Xv6

open Conc BlockSt

variable {ls : ℕ} {t : Tid} {s s' : BlockSt} {i : BufId} {D V : ℕ → Block} {b : ℕ} {x : Block}

/-! ## The sections of the callers -/

/-- A step that changes no buffer, no block and none of the auxiliary variables keeps every view. -/
theorem View.of_quiet {u : Tid} (hd : s'.disk = s.disk) (hb : s'.buf = s.buf) (hl : s'.lh = s.lh)
    (hu : s'.aux.users = s.aux.users) (hp : s'.aux.pinned = s.aux.pinned)
    (hv : s'.aux.latest = s.aux.latest) (hc : s.aux.committer = some u →
      s'.aux.committer = s.aux.committer) : View ls u s s' := by
  refine ⟨⟨fun i _ _ => ⟨by rw [hb]; exact .refl _, by rw [hv]⟩, fun h => ?_⟩, fun i => by rw [hu],
    fun i _ => by rw [hb]; exact ⟨rfl, rfl⟩, fun i h => by rwa [hb] at h⟩
  exact ⟨hd, hl, hc h, hv, hp, fun i _ => by rw [hb]; exact ⟨rfl, rfl⟩,
    fun i hva _ => .inl (by rw [hb] at hva ⊢; exact ⟨hva, rfl, rfl⟩)⟩

theorem beginOp_guar (hf : beginOp t s = .ok () s') : Guar ls t s s' := by
  intro hI
  unfold beginOp at hf
  by_cases hc : s.committing = true
  · simp [hc] at hf
  · rw [if_neg hc] at hf
    split at hf
    · cases hf
    · obtain rfl := (Outcome.ok.inj hf).2
      refine ⟨⟨⟨hI.wf.uniq, hI.wf.mem_lru⟩, hI.used, hI.refs, hI.locked, hI.pin, hI.data, hI.unlogged, hI.logged, hI.nodup,
        hI.room, hI.idle, fun h => absurd h hc⟩, fun u _ => ?_, fun h => absurd h hc⟩
      exact .of_quiet rfl rfl rfl rfl rfl rfl fun _ => rfl

theorem endOpEnter_guar {r : Bool} (hI : Inv ls s) (hf : endOpEnter t s = .ok r s') :
    Guar ls t s s' ∧ (r = true → CommitSt ls t s.lh s.lh (blockAt s.disk) s.aux.latest s') := by
  unfold endOpEnter at hf
  by_cases hc : s.committing = true
  · simp [hc] at hf
  · rw [if_neg hc] at hf
    obtain ⟨hnone, hsync⟩ := hI.idle (by simpa using hc)
    have hpins : ∀ b ∈ s.lh, ∃ i, s.Carries i rootdev b ∧ s.aux.pinned i = true := fun b hb =>
      (hI.logged b hb).2.resolve_right fun h => hc h.1
    have hview : ∀ u, s.aux.committer ≠ some u := fun u h => by
      rw [hnone] at h
      cases h
    split at hf
    · obtain ⟨rfl, rfl⟩ := Outcome.ok.inj hf
      refine ⟨fun _ => ⟨⟨⟨hI.wf.uniq, hI.wf.mem_lru⟩, hI.used, hI.refs, hI.locked, hI.pin, hI.data, hI.unlogged,
        fun b hb => ⟨(hI.logged b hb).1, .inl (hpins b hb)⟩, hI.nodup, hI.room, fun h => (by cases h),
        fun _ => ⟨rfl, by simp⟩⟩, fun u _ => ?_, fun h => absurd h hc⟩, fun _ => ?_⟩
      · exact .of_quiet rfl rfl rfl rfl rfl rfl fun h => absurd h (hview u)
      · exact ⟨rfl, rfl, fun _ _ => rfl, rfl, hpins, fun i hi => (hI.pin i hi).2, hsync⟩
    · obtain ⟨rfl, rfl⟩ := Outcome.ok.inj hf
      refine ⟨fun _ => ⟨⟨⟨hI.wf.uniq, hI.wf.mem_lru⟩, hI.used, hI.refs, hI.locked, hI.pin, hI.data, hI.unlogged, hI.logged,
        hI.nodup, hI.room, hI.idle, fun h => absurd h hc⟩, fun u _ => ?_, fun h => absurd h hc⟩,
        fun h => (by cases h)⟩
      exact .of_quiet rfl rfl rfl rfl rfl rfl fun _ => rfl

theorem endOpLeave_guar (hs : CommitSt ls t [] [] D V s) (hf : endOpLeave t s = .ok () s') :
    Guar ls t s s' := by
  intro hI
  obtain rfl := (Outcome.ok.inj hf).2
  refine ⟨⟨⟨hI.wf.uniq, hI.wf.mem_lru⟩, hI.used, hI.refs, hI.locked, hI.pin, hI.data, hI.unlogged, fun b hb => ?_, hI.nodup,
    hI.room, fun _ => ⟨rfl, hs.sync⟩, fun h => (by cases h)⟩, fun u hu => ?_, fun _ _ => hs.lh⟩
  · have hb : b ∈ s.lh := hb
    rw [hs.lh] at hb
    cases hb
  · refine .of_quiet rfl rfl rfl rfl rfl rfl fun h => ?_
    rw [hs.committer] at h
    exact absurd (Option.some.inj h).symm hu

/-- What `log_write` does when it does not panic. -/
theorem logWrite_ok (hf : logWrite i x t s = .ok () s') :
    (s.buf i).lock = some t ∧ (s.buf i).valid = true ∧ s.lh.length < logblocks ∧
      1 ≤ s.outstanding ∧
      ((s.buf i).blockno ∈ s.lh ∧ s' = { s.setBuf i { s.buf i with data := x } with
          aux := { s.aux with latest := Function.update s.aux.latest (s.buf i).blockno x } } ∨
        (s.buf i).blockno ∉ s.lh ∧ s' = { s.setBuf i { s.buf i with
            data := x, refcnt := (s.buf i).refcnt + 1 } with
          lh := s.lh ++ [(s.buf i).blockno]
          aux := { s.aux with
            latest := Function.update s.aux.latest (s.buf i).blockno x
            pinned := Function.update s.aux.pinned i true } }) := by
  unfold logWrite at hf
  split at hf
  · cases hf
  · rename_i hh
    rw [not_or, not_not] at hh
    split at hf
    · cases hf
    · split at hf
      · cases hf
      · refine ⟨hh.1, by simpa using hh.2, by omega, by omega, ?_⟩
        simp only at hf
        split at hf
        · rename_i hm
          exact .inl ⟨hm, (Outcome.ok.inj hf).2.symm⟩
        · rename_i hm
          exact .inr ⟨hm, (Outcome.ok.inj hf).2.symm⟩

/-- What the two cases of `log_write` have in common. -/
structure Logged (t : Tid) (i : BufId) (x : Block) (s s' : BlockSt) : Prop where
  rest : s' = { s with buf := s'.buf, lh := s'.lh, aux := { s.aux with
    latest := Function.update s.aux.latest (s.buf i).blockno x, pinned := s'.aux.pinned } }
  other : ∀ j, j ≠ i → s'.buf j = s.buf j ∧ s'.aux.pinned j = s.aux.pinned j
  same : (s'.buf i).lock = (s.buf i).lock ∧ (s'.buf i).valid = (s.buf i).valid ∧
    (s'.buf i).dev = (s.buf i).dev ∧ (s'.buf i).blockno = (s.buf i).blockno
  data : (s'.buf i).data = x
  refs : (s'.buf i).refcnt = (s.aux.users i).length + if s'.aux.pinned i then 1 else 0
  pin : s'.aux.pinned i = true
  lh : ∀ b, b ∈ s'.lh ↔ b ∈ s.lh ∨ b = (s.buf i).blockno
  nodup : s'.lh.Nodup
  room : s'.lh.length ≤ logblocks

theorem logWrite_logged (hI : Inv ls s) (hf : logWrite i x t s = .ok () s') :
    Logged t i x s s' := by
  obtain ⟨hl, hv, hlen, hout, ⟨hm, rfl⟩ | ⟨hm, rfl⟩⟩ := logWrite_ok hf
  · have hp : s.aux.pinned i = true := by
      have hc : s.committing ≠ true := fun hc => by
        have := (hI.busy hc).1
        omega
      obtain ⟨j, hj, hp⟩ := (hI.logged _ hm).2.resolve_right fun h => hc h.1
      rwa [hI.wf.uniq i j _ (hI.carries (hI.users_ne_nil hl)) hj]
    refine ⟨rfl, fun j hj => by simp [setBuf, hj], by simp, by simp, ?_, hp, fun b => ?_, hI.nodup,
      hI.room⟩
    · simp only [setBuf_buf_self]
      exact hI.refs i
    · exact ⟨.inl, fun h => h.elim id fun h => h ▸ hm⟩
  · have hp : s.aux.pinned i = false := by
      by_contra hp
      exact hm (hI.pin i (by simpa using hp)).2
    have hr := hI.refs i
    rw [hp] at hr
    refine ⟨rfl, fun j hj => by simp [setBuf, hj], by simp, by simp, by simp [hr], by simp, fun b => ?_,
      ?_, ?_⟩
    · simp
    · exact List.nodup_append.2 ⟨hI.nodup, List.nodup_singleton _, fun a ha b hb => by
        rw [List.mem_singleton.1 hb]
        rintro rfl
        exact hm ha⟩
    · simp only [List.length_append, List.length_singleton]
      omega

/-- `log_write` of a block outside the log. -/
theorem logWrite_guar (hh : Home ls (s.buf i).blockno) (hf : logWrite i x t s = .ok () s') :
    Guar ls t s s' := by
  intro hI
  have h := logWrite_logged hI hf
  obtain ⟨hl, hv, -, hout, -⟩ := logWrite_ok hf
  have hca := hI.carries (hI.users_ne_nil hl)
  have hc : s.committing ≠ true := fun hc => by
    have := (hI.busy hc).1
    omega
  have hcar : ∀ j b, s'.Carries j rootdev b ↔ s.Carries j rootdev b := fun j b => by
    by_cases hji : j = i
    · subst hji
      rw [Carries, Carries, h.same.2.2.1, h.same.2.2.2]
    · exact Carries.of_buf_eq (h.other j hji).1
  have hlat : s'.aux.latest = Function.update s.aux.latest (s.buf i).blockno x := by rw [h.rest]
  have husers : s'.aux.users = s.aux.users := by rw [h.rest]
  have hcommit : s'.committing = s.committing := by rw [h.rest]
  have hdisk : s'.disk = s.disk := by rw [h.rest]
  -- a valid buffer other than `i` has another block
  have hne : ∀ j, j ≠ i → (s.buf j).valid = true ∨ s.aux.users j ≠ [] →
      (s.buf j).blockno ≠ (s.buf i).blockno := fun j hji hj he =>
    hji (hI.wf.uniq j i _ ⟨(hI.used j hj).1, he⟩ hca)
  refine ⟨⟨⟨fun j k b hj hk => ?_, ?_⟩, fun j hj => ?_, fun j => ?_, fun j u hj => ?_, fun j hj => ?_,
    fun j hvj hhj => ?_, fun b hb hn => ?_, fun b hb => ?_, h.nodup, h.room, fun hn => ?_,
    fun hn => ?_⟩, fun u hut => ⟨⟨fun j _ hj => ?_, fun hcu => ?_⟩, fun j => ?_, fun j hj => ?_,
      fun j hj => ?_⟩, fun hn => absurd hn hc⟩
  · exact hI.wf.uniq j k b ((hcar j b).1 hj) ((hcar k b).1 hk)
  · rw [h.rest]
    exact hI.wf.mem_lru
  · rw [husers] at hj
    by_cases hji : j = i
    · subst hji
      rw [h.same.2.2.1, h.same.2.2.2]
      exact hI.used j (.inl hv)
    · rw [(h.other j hji).1] at hj ⊢
      exact hI.used j hj
  · rw [husers]
    by_cases hji : j = i
    · subst hji
      exact h.refs
    · rw [(h.other j hji).1, (h.other j hji).2]
      exact hI.refs j
  · rw [husers]
    by_cases hji : j = i
    · subst hji
      exact hI.locked j u (h.same.1 ▸ hj)
    · rw [(h.other j hji).1] at hj
      exact hI.locked j u hj
  · rw [h.lh]
    by_cases hji : j = i
    · subst hji
      rw [h.same.2.1, h.same.2.2.2]
      exact ⟨hv, .inr rfl⟩
    · rw [(h.other j hji).1]
      exact (hI.pin j ((h.other j hji).2 ▸ hj)).imp_right .inl
  · rw [hlat]
    by_cases hji : j = i
    · subst hji
      rw [h.data, h.same.2.2.2, Function.update_self]
    · rw [(h.other j hji).1] at hvj hhj ⊢
      rw [Function.update_of_ne (hne j hji (.inl hvj))]
      exact hI.data j hvj hhj
  · rw [h.lh, not_or] at hn
    rw [hlat, Function.update_of_ne hn.2, hdisk]
    exact hI.unlogged b hb hn.1
  · rcases (h.lh b).1 hb with hb | rfl
    · refine ⟨(hI.logged b hb).1, .inl ?_⟩
      obtain ⟨j, hj, hp⟩ := (hI.logged b hb).2.resolve_right fun h => hc h.1
      by_cases hji : j = i
      · subst hji
        exact ⟨j, (hcar j b).2 hj, h.pin⟩
      · exact ⟨j, (hcar j b).2 hj, (h.other j hji).2.trans hp⟩
    · exact ⟨hh, .inl ⟨i, (hcar i _).2 hca, h.pin⟩⟩
  · rw [hcommit] at hn
    have hid := hI.idle hn
    refine ⟨by rw [h.rest]; exact hid.1, fun j hvj hlj => ?_⟩
    have hji : j ≠ i := by
      rintro rfl
      rw [h.same.2.2.2] at hlj
      exact hh.2 hlj
    rw [(h.other j hji).1] at hvj hlj ⊢
    rw [hdisk]
    exact hid.2 j hvj hlj
  · rw [hcommit] at hn
    exact absurd hn hc
  · have hji : j ≠ i := by
      rintro rfl
      rw [hl] at hj
      exact hut (Option.some.inj hj).symm
    rw [(h.other j hji).1, hlat, Function.update_of_ne (hne j hji (.inr (hI.users_ne_nil hj)))]
    exact ⟨.refl _, rfl⟩
  · exact absurd (hI.committing_of_committer hcu) hc
  · rw [husers]
  · by_cases hji : j = i
    · subst hji
      exact h.same.2.2
    · rw [(h.other j hji).1]
      exact ⟨rfl, rfl⟩
  · by_cases hji : j = i
    · subst hji
      exact h.same.1 ▸ hj
    · rwa [(h.other j hji).1] at hj

/-! ## The callers -/

instance (b : ℕ) : Decidable (Home ls b) := inferInstanceAs (Decidable (_ ∧ ¬ (_ ∧ _)))

variable (ls) in
/-- `log_write` by the file system, which does not log the blocks of the log itself. -/
def logWriteHome (i : BufId) (x : Block) : Action BlockSt Unit := fun t s =>
  if Home ls (s.buf i).blockno then logWrite i x t s else .block

/-- A block number whose sectors the device can address. -/
abbrev BlockNo := { b : ℕ // b < 2 ^ 31 }

/-- The calls of the block layer; `logWrite i x` is the stores `x` to the buffer `i` followed by
`log_write`. -/
inductive Call
  | beginOp
  | bread (b : BlockNo)
  | logWrite (i : BufId) (x : Block)
  | brelse (i : BufId)
  | endOp

/-- The value of a call: the buffer of `bread`, with its contents. -/
abbrev Reply := Option (BufId × Block)

variable (ls) in
/-- The programs of the calls. -/
def body : Call → Prog BlockSt Reply
  | .beginOp => do
    Prog.lift beginOp
    return none
  | .bread b => do
    let i ← bread rootdev b
    return some (i, ← Prog.lift (bufData i))
  | .logWrite i x => do
    Prog.lift (logWriteHome ls i x)
    return none
  | .brelse i => do
    brelse i
    return none
  | .endOp => do
    endOp ls
    return none

/-- What a thread knows when its call returns: it holds the buffer of `bread`. -/
def Returns (t : Tid) : Call → Reply → BlockSt → Prop
  | .bread b, some (i, x), s => Holds t [(i, b.1, x)] s
  | _, _, _ => True

theorem kept_true : Kept ls t fun _ => True := fun _ _ _ _ => trivial

theorem body_wp (hls : ls + logblocks < 2 ^ 31) (c : Call) (hI : Inv ls s) :
    WP (duty ls t) t (body ls c) (Returns t c) s := by
  have hstable : Stable ls t fun _ => True := fun _ _ _ _ _ _ => trivial
  cases c with
  | beginOp =>
    refine duty_act hstable hI trivial fun s₀ _ s₁ hI₀ _ h => ⟨beginOp_guar h, fun hI₁ => ?_⟩
    exact duty_ret hstable hI₁ trivial fun _ _ _ => trivial
  | bread b =>
    refine duty_bind (bread_share kept_true hI holds_nil trivial b.2 fun i x s₁ hI₁ hH₁ _ _ => ?_)
    refine bufData_share kept_true hI₁ hH₁ trivial List.mem_cons_self fun s₂ hI₂ hH₂ _ => ?_
    exact duty_ret (kept_and_holds kept_true) hI₂ ⟨hH₂, trivial⟩ fun _ _ h => h.1
  | logWrite i x =>
    refine duty_act hstable hI trivial fun s₀ _ s₁ hI₀ _ h => ?_
    unfold logWriteHome at h
    split at h
    · rename_i hh
      exact ⟨logWrite_guar hh h, fun hI₁ => duty_ret hstable hI₁ trivial fun _ _ _ => trivial⟩
    · cases h
  | brelse i =>
    refine duty_bind (brelse_share kept_true hI holds_nil (fun e he => by cases he) trivial
      fun s₁ hI₁ _ _ => ?_)
    exact duty_ret hstable hI₁ trivial fun _ _ _ => trivial
  | endOp =>
    refine duty_bind ?_
    unfold endOp
    simp only [Prog.lift_bind]
    refine duty_act hstable hI trivial fun s₀ r s₁ hI₀ _ h => ?_
    obtain ⟨hg, hs⟩ := endOpEnter_guar hI₀ h
    refine ⟨hg, fun hI₁ => ?_⟩
    cases r with
    | false =>
      refine duty_ret hstable hI₁ trivial fun s₂ hI₂ _ => ?_
      exact duty_ret hstable hI₂ trivial fun _ _ _ => trivial
    | true =>
      refine duty_bind (commit_share hls hI₁ (hs rfl) fun s₂ D hI₂ hs₂ => ?_)
      refine duty_act (kept_and_holds CommitSt.kept) hI₂ ⟨holds_nil, hs₂⟩ fun s₃ _ s₄ hI₃ h₃ h => ?_
      refine ⟨endOpLeave_guar h₃.2 h, fun hI₄ => duty_ret hstable hI₄ trivial fun s₅ hI₅ _ => ?_⟩
      exact duty_ret hstable hI₅ trivial fun _ _ _ => trivial

/-! ## Only `log_write` stores -/

/-- The block layer before its first call: nothing logged, nothing in use, and what the cache holds
it has read. -/
structure Fresh (s : BlockSt) : Prop where
  wf : CacheWF s
  idle : Idle s
  used : ∀ i, (s.buf i).valid = true → (s.buf i).dev = rootdev ∧ (s.buf i).blockno < 2 ^ 31
  synced : ∀ i, (s.buf i).valid = true → (s.buf i).data = blockAt s.disk (s.buf i).blockno
  lh : s.lh = []
  committing : s.committing = false
  aux : s.aux = ⟨fun _ => [], fun _ => false, none, blockAt s.disk⟩

theorem Fresh.inv (h : Fresh s) : Inv ls s := by
  obtain ⟨hwf, hidle, hused, hsync, hlh, hc, haux⟩ := h
  refine ⟨hwf, fun i hi => ?_, fun i => ?_, fun i t ht => ?_, fun i hi => ?_, fun i hv _ => ?_,
    fun b _ _ => ?_, fun b hb => ?_, ?_, ?_, fun _ => ⟨?_, fun i hv _ => hsync i hv⟩, fun h => ?_⟩
  · exact hused i (hi.resolve_right (by simp [haux]))
  · simp [haux, (hidle i).1]
  · simp [(hidle i).2] at ht
  · simp [haux] at hi
  · simp [haux, hsync i hv]
  · rw [haux]
  · simp [hlh] at hb
  · simp [hlh]
  · simp [hlh]
  · rw [haux]
  · rw [hc] at h
    cases h

theorem fresh_binit (d : Disk) : Fresh (binit d) := by
  refine ⟨⟨fun i j b hi => ?_, fun i => by simp [binit]⟩, fun i => ⟨rfl, rfl⟩, fun i hv => ?_,
    fun i hv => ?_, rfl, rfl, rfl⟩
  · simp [Carries, binit] at hi
  · simp [binit] at hv
  · simp [binit] at hv

end Xv6
