import Mathlib.Data.List.Nodup
import Mathlib.Data.Fin.Basic
import Xv6.Block.Phases

/-!
# Crash atomicity of the redo log

The programs of `log.c` phase by phase: `write_log` keeps the device clean, the first `write_head`
commits, `install_trans` keeps the transaction committed, and the last `write_head` makes the device
clean again. From these, `commit_crash_atomic`: whatever the sector write at which `commit` stops,
and whatever the sector writes at which the recoveries after it stop, a recovery that completes
leaves all of the transaction or none of it.
-/

namespace Xv6

open Conc BlockSt

/-! ## The programs, phase by phase -/

section Programs

variable {ls : ℕ} {L : List ℕ} {old new : ℕ → Block} {t : Tid} {s : BlockSt}

/-- The thread holds two buffers of different blocks. -/
theorem Got.ne_of_ne {s₁ s₂ : BlockSt} {i j : BufId} {b c : ℕ} (h₁ : Got s t c i s₁)
    (h₂ : Got s₁ t b j s₂) (hne : b ≠ c) (hr : 1 ≤ (s₁.buf i).refcnt) : i ≠ j := by
  rintro rfl
  rcases h₂.was with hc | hz
  · exact hne (hc.2.symm.trans h₁.carries.2)
  · omega

/-- The state of `write_log` before its turn `tail`. -/
structure LogCopied (ls : ℕ) (L : List ℕ) (new : ℕ → Block) (tail : ℕ) (s : BlockSt) : Prop where
  wf : CacheWF s
  lh : s.lh = L
  pins : ∀ b ∈ L, Pinned s b (new b)
  log : ∀ k (hk : k < L.length), k < tail → Synced s (ls + k + 1) (new L[k])

/-- One turn of `write_log` copies one block, and touches nothing but its log block. -/
theorem writeLogLoop_wp (hls : ls + logblocks < 2 ^ 31) (hlen : L.length ≤ logblocks)
    (hhome : ∀ b ∈ L, Home ls b) {Q : Unit → BlockSt → Prop}
    (hQ : ∀ s', LogCopied ls L new L.length s' → Clean ls old s'.disk → Q () s') :
    ∀ (rest : List ℕ) (tail : ℕ) (s : BlockSt), L.drop tail = rest → tail ≤ L.length →
      LogCopied ls L new tail s → Clean ls old s.disk →
      WP (alone (fun s => Clean ls old s.disk) True) t (writeLogLoop ls tail rest) Q s
  | [], tail, s, hrest, htail, hJ, hI => by
    have : tail = L.length := by
      have := List.drop_eq_nil_iff.1 hrest
      omega
    subst this
    exact WP.alone_ret _ hI (hQ s hJ hI)
  | b :: bs, tail, s, hrest, htail, hJ, hI => by
    obtain ⟨hlt, hb, hbs⟩ := of_drop_eq_cons hrest
    have hbL : b ∈ L := hb ▸ List.getElem_mem hlt
    have hlog : InLog ls (ls + tail + 1) := inLog_entry (by omega)
    have hlog' : ls + tail + 1 < 2 ^ 31 := by
      simp only [logblocks] at hls hlen
      omega
    unfold writeLogLoop
    refine WP.alone_bind (bread_wp hJ.wf hI (.inl trivial) fun i s₁ h₁ => ?_)
    have hI₁ : Clean ls old s₁.disk := h₁.disk ▸ hI
    refine WP.alone_bind (bread_wp h₁.wf hI₁ (.inl trivial) fun j s₂ h₂ => ?_)
    have hI₂ : Clean ls old s₂.disk := h₂.disk ▸ hI₁
    have hij : i ≠ j := h₁.ne_of_ne h₂ ((hhome b hbL).ne hlog) (by rw [h₁.refcnt]; omega)
    have hbuf : s₂.buf i = s₁.buf i := h₂.other i hij
    have hno : (s₂.buf i).blockno = ls + tail + 1 := by rw [hbuf, h₁.carries.2]
    have hx : (s₂.buf j).data = new b := h₂.data_of_pinned h₁.wf (h₁.pinned (hJ.pins b hbL))
    simp only [Prog.lift_bind]
    refine WP.alone_ok hI₂ rfl ?_
    rw [hx]
    -- the write goes to a log block, so the header and the home blocks stay
    have hhdr : ls ≠ ls + tail + 1 := by omega
    have hI₃ : Clean ls old (stored s₂ i (new b)).disk := by
      refine hI₂.of_blockAt (blockAt_stored_of_ne (by omega) (by omega) (by omega)) fun c hc => ?_
      exact blockAt_stored_of_ne (by omega) hc.1 (hno ▸ hc.ne hlog)
    refine setBufData_bwrite_wp (by rw [hbuf, h₁.lock]) hI₂ ?_ hI₃ ?_
    · refine hI₂.of_blockAt ?_ fun c hc => ?_
      · exact blockAt_writeSector_of_ne (by omega) (by omega) (by omega) (by omega)
      · exact blockAt_writeSector_of_ne (by omega) hc.1 (by omega) (hno ▸ hc.ne hlog)
    have hwf₃ : CacheWF (stored s₂ i (new b)) := h₂.wf.stored
    have hj₃ : (stored s₂ i (new b)).buf j = s₂.buf j := by rw [stored_buf, if_neg hij.symm]
    refine WP.alone_bind (brelse_wp hwf₃ (by rw [hj₃, h₂.lock]) hI₃ fun s₄ h₄ => ?_)
    have hI₄ : Clean ls old s₄.disk := h₄.disk ▸ hI₃
    have hi₄ : s₄.buf i = { s₂.buf i with data := new b } := by
      rw [h₄.other i hij, stored_buf, if_pos rfl]
    refine WP.alone_bind (brelse_wp h₄.wf (by rw [hi₄]; simp [hbuf, h₁.lock]) hI₄ fun s₅ h₅ => ?_)
    refine writeLogLoop_wp hls hlen hhome hQ bs (tail + 1) s₅ hbs hlt ?_ (h₅.disk ▸ hI₄)
    refine ⟨h₅.wf, ?_, fun c hc => ?_, fun k hk hkt => ?_⟩
    · rw [h₅.lh, h₄.lh]
      exact h₂.lh.trans (h₁.lh.trans hJ.lh)
    · have hp₂ := h₂.pinned (h₁.pinned (hJ.pins c hc))
      have hp₃ : Pinned (stored s₂ i (new b)) c (new c) := hp₂.stored (hno ▸ (hhome c hc).ne hlog)
      have hp₄ : Pinned s₄ c (new c) := by
        refine h₄.pinned hp₃ fun hcj => ?_
        -- the reference that `bread` took is on top of the pin
        rw [hj₃, h₂.refcnt]
        have hcb : c = b := by
          have := (carries_stored.1 hcj).2
          rw [h₂.carries.2] at this
          exact this.symm
        obtain ⟨k, hck, -, hrk, -⟩ := h₁.pinned (hJ.pins b hbL)
        rcases h₂.data with ⟨hcj', -, -⟩ | ⟨hn, -⟩
        · rw [h₁.wf.uniq j k b hcj' hck]
          omega
        · obtain ⟨k', hck', hvk', -, -⟩ := h₁.pinned (hJ.pins b hbL)
          simp [hn k' hck'] at hvk'
      refine h₅.pinned hp₄ fun hci => ?_
      have : c = ls + tail + 1 := by
        have := hci.2
        rw [hi₄] at this
        exact this.symm.trans hno
      exact absurd this ((hhome c hc).ne hlog)
    · rcases Nat.lt_or_ge k tail with hk' | hk'
      · have hs₂ := h₂.synced (h₁.synced (hJ.log k hk hk'))
        have hs₃ : Synced (stored s₂ i (new b)) (ls + k + 1) (new L[k]) :=
          hs₂.stored (by omega) (by omega) (by omega)
        exact h₅.synced (h₄.synced hs₃)
      · have hkt' : k = tail := by omega
        subst hkt'
        have hs₃ : Synced (stored s₂ i (new b)) (ls + k + 1) (new b) := by
          refine synced_stored h₂.wf ?_ hlog'
          exact (Carries.of_buf_eq hbuf).2 h₁.carries
        rw [hb]
        exact h₅.synced (h₄.synced hs₃)

theorem Idle.ready (h : Idle s) (b : ℕ) : Ready s b :=
  ⟨.inr ⟨0, (h 0).1⟩, fun i _ => (h i).2⟩

/-- With one buffer in use there is another for the next block. -/
theorem Idle.ready_of_got {s₁ : BlockSt} {i : BufId} {b c : ℕ} (h : Idle s) (h₁ : Got s t c i s₁)
    (hne : b ≠ c) : Ready s₁ b := by
  have hi : (s₁.buf i).refcnt = 1 := by rw [h₁.refcnt, (h i).1]
  refine ⟨.inr ?_, fun k hk => ?_⟩
  · obtain ⟨k, hk⟩ : ∃ k : BufId, k ≠ i := exists_ne (α := Fin 30) i
    exact ⟨k, by rw [h₁.other k hk, (h k).1]⟩
  · have hki : k ≠ i := by
      rintro rfl
      rcases hk with hc | hz
      · exact hne (hc.2.symm.trans h₁.carries.2)
      · omega
    rw [h₁.other k hki, (h k).2]

/-- The state of `install_trans` before its turn `tail`. -/
structure Installing (ls : ℕ) (L : List ℕ) (new : ℕ → Block) (tail : ℕ) (s : BlockSt) : Prop where
  wf : CacheWF s
  lh : s.lh = L
  log : ∀ k (hk : k < L.length), Synced s (ls + k + 1) (new L[k])
  done : ∀ k (hk : k < L.length), k < tail → blockAt s.disk L[k] = new L[k]

/-- A sector of a committed block goes home. -/
theorem Committed.writeSector {d : Disk} {b h : ℕ} (hls : ls + logblocks < 2 ^ 31)
    (hlen : L.length ≤ logblocks) (hc : Committed ls L old new d) (hb : Home ls b) (hh : h < 2) :
    Committed ls L old new (writeSector d b h (half (new b) h)) := by
  simp only [logblocks] at hls hlen
  refine ⟨?_, fun k hk => ?_, fun c hc' h' hh' => ?_⟩
  · rw [blockAt_writeSector_of_ne hb.1 (by omega) hh (hb.ne inLog_header).symm, hc.header]
  · rw [blockAt_writeSector_of_ne hb.1 (by omega) hh
      (hb.ne (inLog_entry (by simp only [logblocks]; omega))).symm, hc.log k hk]
  · rw [half_blockAt_writeSector hb.1 hc'.1 hh hh']
    split
    · rename_i he
      rw [he.1, he.2]
      exact .inr rfl
    · exact hc.home c hc' h' hh'

/-- One turn of `install_trans` writes one block home. -/
theorem installLoop_wp {recovering : Bool} {may : Prop} (hls : ls + logblocks < 2 ^ 31)
    (hlen : L.length ≤ logblocks) (hhome : ∀ b ∈ L, Home ls b) (hnd : L.Nodup)
    {Q : Unit → BlockSt → Prop}
    (hQ : ∀ s', Installing ls L new L.length s' → Committed ls L old new s'.disk →
      (may ∨ Idle s') → Q () s') :
    ∀ (rest : List ℕ) (tail : ℕ) (s : BlockSt), L.drop tail = rest → tail ≤ L.length →
      Installing ls L new tail s → Committed ls L old new s.disk →
      (may ∨ recovering = true ∧ Idle s) →
      WP (alone (fun s => Committed ls L old new s.disk) may) t
        (installLoop ls recovering tail rest) Q s
  | [], tail, s, hrest, htail, hJ, hI, hm => by
    have : tail = L.length := by
      have := List.drop_eq_nil_iff.1 hrest
      omega
    subst this
    exact WP.alone_ret _ hI (hQ s hJ hI (hm.imp_right And.right))
  | b :: bs, tail, s, hrest, htail, hJ, hI, hm => by
    obtain ⟨hlt, hb, hbs⟩ := of_drop_eq_cons hrest
    have hbL : b ∈ L := hb ▸ List.getElem_mem hlt
    have hbh : Home ls b := hhome b hbL
    have hlog : InLog ls (ls + tail + 1) := inLog_entry (by omega)
    have hls' := hls
    have hlen' := hlen
    simp only [logblocks] at hls' hlen'
    unfold installLoop
    refine WP.alone_bind (bread_wp hJ.wf hI (hm.imp_right fun h => h.2.ready _) fun i s₁ h₁ => ?_)
    have hI₁ : Committed ls L old new s₁.disk := h₁.disk ▸ hI
    refine WP.alone_bind (bread_wp h₁.wf hI₁
      (hm.imp_right fun h => h.2.ready_of_got h₁ (hbh.ne hlog)) fun j s₂ h₂ => ?_)
    have hI₂ : Committed ls L old new s₂.disk := h₂.disk ▸ hI₁
    have hij : i ≠ j := h₁.ne_of_ne h₂ (hbh.ne hlog) (by rw [h₁.refcnt]; omega)
    have hbuf : s₂.buf i = s₁.buf i := h₂.other i hij
    have hno : (s₂.buf j).blockno = b := h₂.carries.2
    have hx : (s₂.buf i).data = new b := by
      rw [hbuf, h₁.data_of_synced (hJ.log tail hlt), hb]
    simp only [Prog.lift_bind]
    refine WP.alone_ok hI₂ rfl ?_
    rw [hx]
    have hI₂' : Committed ls L old new
        (writeSector s₂.disk (s₂.buf j).blockno 0 (half (new b) 0)) := by
      rw [hno]
      exact hI₂.writeSector hls hlen hbh (by omega)
    have hI₃ : Committed ls L old new (stored s₂ j (new b)).disk := by
      simp only [stored, hno] at hI₂' ⊢
      exact hI₂'.writeSector hls hlen hbh (by omega)
    refine setBufData_bwrite_wp h₂.lock hI₂ hI₂' hI₃ ?_
    -- what the two releases see, whether or not the buffer was unpinned before them
    have hfin : ∀ s₃, (∀ k, s₃.buf k = (if k = j then { s₂.buf j with
          data := new b, refcnt := (s₃.buf j).refcnt } else s₂.buf k)) →
        s₃.disk = (stored s₂ j (new b)).disk → s₃.lh = s₂.lh → (∀ k, k ∈ s₃.lru) →
        (may ∨ recovering = true ∧ Idle s ∧ (s₃.buf j).refcnt = 1) →
        WP (alone (fun s => Committed ls L old new s.disk) may) t
          (brelse i >>= fun _ => brelse j >>= fun _ => installLoop ls recovering (tail + 1) bs) Q s₃ := by
      intro s₃ hb₃ hd₃ hlh₃ hlru₃ hm₃
      have hc₃ : ∀ k c, s₃.Carries k rootdev c ↔ (stored s₂ j (new b)).Carries k rootdev c := by
        intro k c
        rw [carries_stored, Carries, Carries, hb₃ k]
        split
        · rename_i hk
          rw [hk]
        · rfl
      have hwf₃ : CacheWF s₃ := by
        refine ⟨fun k k' c hk hk' => ?_, hlru₃⟩
        exact (h₂.wf.stored (i := j) (x := new b)).uniq k k' c ((hc₃ k c).1 hk) ((hc₃ k' c).1 hk')
      have hi₃ : s₃.buf i = s₂.buf i := by rw [hb₃ i, if_neg hij]
      have hI₃' : Committed ls L old new s₃.disk := hd₃ ▸ hI₃
      refine WP.alone_bind (brelse_wp hwf₃ (by rw [hi₃, hbuf, h₁.lock]) hI₃' fun s₄ h₄ => ?_)
      have hI₄ : Committed ls L old new s₄.disk := h₄.disk ▸ hI₃'
      have hj₄ : s₄.buf j = s₃.buf j := h₄.other j hij.symm
      have hlj : (s₃.buf j).lock = some t := by
        rw [hb₃ j, if_pos rfl]
        exact h₂.lock
      refine WP.alone_bind (brelse_wp h₄.wf (by rw [hj₄, hlj]) hI₄ fun s₅ h₅ => ?_)
      have hd₅ : s₅.disk = (stored s₂ j (new b)).disk := by rw [h₅.disk, h₄.disk, hd₃]
      refine installLoop_wp hls hlen hhome hnd hQ bs (tail + 1) s₅ hbs hlt ?_ (hd₅ ▸ hI₃) ?_
      · refine ⟨h₅.wf, ?_, fun k hk => ?_, fun k hk hkt => ?_⟩
        · rw [h₅.lh, h₄.lh, hlh₃, h₂.lh, h₁.lh, hJ.lh]
        · have hs₂ := h₂.synced (h₁.synced (hJ.log k hk))
          have hne : ls + k + 1 ≠ (s₂.buf j).blockno := by
            rw [hno]
            exact (hbh.ne (inLog_entry (by omega))).symm
          have hs₃ : Synced (stored s₂ j (new b)) (ls + k + 1) (new L[k]) :=
            hs₂.stored (by have := hbh.1; omega) (by omega) hne
          have hs₃' : Synced s₃ (ls + k + 1) (new L[k]) := by
            refine ⟨by rw [hd₃, hs₃.1], fun m hm hv => ?_⟩
            have hmj : m ≠ j := by
              rintro rfl
              exact hne (((hc₃ m _).1 hm).2.symm.trans (by rw [stored_buf, if_pos rfl]))
            have hm₃ : s₃.buf m = (stored s₂ j (new b)).buf m := by
              rw [hb₃ m, stored_buf, if_neg hmj, if_neg hmj]
            rw [hm₃] at hv ⊢
            exact hs₃.2 m ((hc₃ m _).1 hm) hv
          exact h₅.synced (h₄.synced hs₃')
        · rw [hd₅]
          rcases Nat.lt_or_ge k tail with hk' | hk'
          · have hkb : L[k] ≠ (s₂.buf j).blockno := by
              rw [hno, ← hb]
              intro he
              have := List.Nodup.getElem_inj_iff hnd |>.1 he
              omega
            rw [blockAt_stored_of_ne (by have := hbh.1; omega) (hhome _ (List.getElem_mem hk)).1 hkb,
              h₂.disk, h₁.disk, hJ.done k hk hk']
          · have hkt' : k = tail := by omega
            subst hkt'
            rw [hb]
            have := blockAt_stored (s := s₂) (i := j) (x := new b) (by have := hbh.1; omega)
            rwa [hno] at this
      · refine hm₃.imp_right ?_
        rintro ⟨hrec, hidle, hone⟩
        refine ⟨hrec, fun k => ?_⟩
        by_cases hkj : k = j
        · subst hkj
          simp [h₅.buf, hj₄, hone]
        · by_cases hki : k = i
          · subst hki
            rw [h₅.other k hkj, h₄.buf, hi₃, hbuf]
            simp [h₁.refcnt, (hidle k).1]
          · rw [h₅.other k hkj, h₄.other k hki, hb₃ k, if_neg hkj, h₂.other k hkj, h₁.other k hki]
            exact hidle k
    have hj₁ : may ∨ recovering = true ∧ Idle s ∧ ((stored s₂ j (new b)).buf j).refcnt = 1 := by
      refine hm.imp_right ?_
      rintro ⟨hrec, hidle⟩
      refine ⟨hrec, hidle, ?_⟩
      rw [stored_buf, if_pos rfl]
      simp [h₂.refcnt, h₁.other j hij.symm, (hidle j).1]
    cases recovering with
    | true =>
      refine hfin _ (fun k => ?_) rfl rfl h₂.wf.mem_lru hj₁
      rw [stored_buf]
      split
      · rw [stored_buf, if_pos rfl]
      · rfl
    | false =>
      have hmay : may := hm.resolve_right fun h => by simp at h
      refine WP.alone_ok hI₃ rfl (hfin _ (fun k => ?_) rfl rfl h₂.wf.mem_lru (.inl hmay))
      by_cases hkj : k = j
      · subst hkj
        simp [setBuf, stored]
      · simp [setBuf, stored, hkj]

/-- What the two programs on the header do to the rest of the state. -/
structure HeadTurn (ls : ℕ) (s s' : BlockSt) : Prop where
  wf : CacheWF s'
  synced : ∀ b x, b ≠ ls → b < 2 ^ 31 → Synced s b x → Synced s' b x
  idle : Idle s → Idle s'

/-- `read_head`. -/
theorem readHead_wp {I : Disk → Prop} {may : Prop} {Q : Unit → BlockSt → Prop} (hwf : CacheWF s)
    (hI : I s.disk) (hm : may ∨ Idle s) (hsync : Synced s ls (blockAt s.disk ls))
    (hQ : ∀ s', HeadTurn ls s s' → s'.disk = s.disk → s'.lh = decodeHeader (blockAt s.disk ls) →
      Q () s') : WP (alone (fun s => I s.disk) may) t (readHead ls) Q s := by
  unfold readHead
  refine WP.alone_bind (bread_wp hwf hI (hm.imp_right fun h => h.ready _) fun i s₁ h₁ => ?_)
  have hI₁ : I s₁.disk := h₁.disk ▸ hI
  simp only [Prog.lift_bind]
  refine WP.alone_ok hI₁ rfl (WP.alone_ok hI₁ rfl ?_)
  have hwf₁ : CacheWF { s₁ with lh := decodeHeader (s₁.buf i).data } := ⟨h₁.wf.uniq, h₁.wf.mem_lru⟩
  refine brelse_wp hwf₁ h₁.lock hI₁ fun s₂ h₂ => hQ s₂ ⟨h₂.wf, fun b x _ _ hs => ?_, ?_⟩ ?_ ?_
  · exact h₂.synced (h₁.synced hs)
  · intro hidle k
    by_cases hk : k = i
    · subst hk
      simp [h₂.buf, h₁.refcnt, (hidle k).1]
    · rw [h₂.other k hk]
      simp only [h₁.other k hk]
      exact hidle k
  · rw [h₂.disk, h₁.disk]
  · rw [h₂.lh, ← h₁.data_of_synced hsync]

/-- `write_head`: the invariant has to survive the two sectors of the header. -/
theorem writeHead_wp {I : Disk → Prop} {may : Prop} {Q : Unit → BlockSt → Prop} (hwf : CacheWF s)
    (hls : ls < 2 ^ 31) (hm : may ∨ Idle s) (hI : I s.disk)
    (hI₀ : ∀ x, I (writeSector s.disk ls 0 (half (encodeHeader s.lh x) 0)))
    (hI₁ : ∀ x, I (writeSector (writeSector s.disk ls 0 (half (encodeHeader s.lh x) 0)) ls 1
      (half (encodeHeader s.lh x) 1)))
    (hQ : ∀ s' x, HeadTurn ls s s' → s'.lh = s.lh →
      s'.disk = writeSector (writeSector s.disk ls 0 (half (encodeHeader s.lh x) 0)) ls 1
        (half (encodeHeader s.lh x) 1) → Q () s') :
    WP (alone (fun s => I s.disk) may) t (writeHead ls) Q s := by
  unfold writeHead
  refine WP.alone_bind (bread_wp hwf hI (hm.imp_right fun h => h.ready _) fun i s₁ h₁ => ?_)
  have hno : (s₁.buf i).blockno = ls := h₁.carries.2
  simp only [Prog.lift_bind]
  refine WP.alone_ok (h₁.disk ▸ hI) rfl (WP.alone_ok (h₁.disk ▸ hI) rfl ?_)
  rw [h₁.lh]
  generalize (s₁.buf i).data = x
  have hdisk : (stored s₁ i (encodeHeader s.lh x)).disk = writeSector (writeSector s.disk ls 0
      (half (encodeHeader s.lh x) 0)) ls 1 (half (encodeHeader s.lh x) 1) := by
    simp only [stored, hno, h₁.disk]
  refine setBufData_bwrite_wp h₁.lock (h₁.disk ▸ hI) ?_ (hdisk ▸ hI₁ x) ?_
  · rw [hno, h₁.disk]
    exact hI₀ x
  · have hi : (stored s₁ i (encodeHeader s.lh x)).buf i =
        { s₁.buf i with data := encodeHeader s.lh x } := by
      rw [stored_buf, if_pos rfl]
    refine brelse_wp h₁.wf.stored (by rw [hi]; exact h₁.lock) (hdisk ▸ hI₁ x) fun s₂ h₂ => ?_
    refine hQ s₂ x ⟨h₂.wf, fun b y hb hlt hs => ?_, fun hidle k => ?_⟩ ?_ ?_
    · refine h₂.synced ((h₁.synced hs).stored (by omega) hlt ?_)
      rw [hno]
      exact hb
    · by_cases hk : k = i
      · subst hk
        rw [h₂.buf, hi]
        simp [h₁.refcnt, (hidle k).1]
      · rw [h₂.other k hk, stored_buf, if_neg hk, h₁.other k hk]
        exact hidle k
    · exact h₂.lh.trans h₁.lh
    · rw [h₂.disk, hdisk]

/-- The last `write_head` of an installed transaction. -/
theorem eraseHead_wp {may : Prop} (hls : ls + logblocks < 2 ^ 31)
    (hsame : ∀ b, b ∉ L → new b = old b) (hJ : Installing ls L new L.length s)
    (hI : Committed ls L old new s.disk) (hm : may ∨ Idle s) {Q : Unit → BlockSt → Prop}
    (hQ : ∀ s', Clean ls new s'.disk → s'.lh = [] → Q () s') :
    WP (alone (fun s => Committed ls L old new s.disk ∨ Clean ls new s.disk) may) t
      (.act (setLh []) fun _ => writeHead ls) Q s := by
  have hls' : ls < 2 ^ 31 := by omega
  have hdone : ∀ k (hk : k < L.length), blockAt s.disk L[k] = new L[k] :=
    fun k hk => hJ.done k hk hk
  have hsame₀ : SameBut ls s.disk s.disk := fun _ _ _ => rfl
  have hclean : ∀ x, Clean ls new (writeSector (writeSector s.disk ls 0
      (half (encodeHeader [] x) 0)) ls 1 (half (encodeHeader [] x) 1)) := fun x =>
    hI.erase hdone hsame ((hsame₀.writeSector hls' (by omega)).writeSector hls' (by omega))
      (decodeHeader_write_both hls' (by simp) (by simp))
  refine WP.alone_ok (.inl hI) rfl ?_
  refine writeHead_wp (I := fun d => Committed ls L old new d ∨ Clean ls new d)
    ⟨hJ.wf.uniq, hJ.wf.mem_lru⟩ hls' hm (.inl hI) (fun x => .inr ?_) (fun x => .inr (hclean x))
    fun s' x _ hlh hd => hQ s' ?_ hlh
  · exact hI.erase hdone hsame (hsame₀.writeSector hls' (by omega))
      (decodeHeader_write hls' (by simp) (by simp))
  · rw [hd]
    exact hclean x

/-- The phases of `commit`. -/
def Phase (ls : ℕ) (L : List ℕ) (old new : ℕ → Block) (d : Disk) : Prop :=
  Clean ls old d ∨ Committed ls L old new d ∨ Clean ls new d

/-- **`commit`**, at every point of its run and at its end. -/
theorem commit_wp (hls : ls + logblocks < 2 ^ 31) (hlen : s.lh.length ≤ logblocks)
    (hhome : ∀ b ∈ s.lh, Home ls b) (hnd : s.lh.Nodup) (hsame : ∀ b, b ∉ s.lh → new b = old b)
    (hwf : CacheWF s) (hpins : ∀ b ∈ s.lh, Pinned s b (new b)) (hclean : Clean ls old s.disk) :
    WP (alone (fun s' => Phase ls s.lh old new s'.disk) True) t (commit ls)
      (fun _ s' => Clean ls new s'.disk ∧ s'.lh = []) s := by
  generalize hL : s.lh = L at *
  have hls' : ls < 2 ^ 31 := by omega
  have hlt : ∀ b ∈ L, b < 2 ^ 32 := fun b hb => by
    have := (hhome b hb).1
    omega
  unfold commit
  simp only [Prog.lift_bind]
  refine WP.alone_ok (.inl hclean) rfl ?_
  rw [hL]
  by_cases hn : L.length > 0
  · rw [if_pos hn]
    -- write_log
    unfold writeLog
    simp only [Prog.lift_bind, Prog.act_bind]
    refine WP.alone_ok (.inl hclean) rfl (WP.alone_bind ?_)
    rw [hL]
    refine WP.alone_weaken (fun s h => .inl h) (writeLogLoop_wp hls hlen hhome (fun s₁ h₁ hI₁ => ?_)
      L 0 s rfl (Nat.zero_le _) ⟨hwf, hL, hpins, fun k _ hk => absurd hk (Nat.not_lt_zero k)⟩ hclean)
    -- write_head
    have hlog : ∀ k (hk : k < L.length), blockAt s₁.disk (ls + k + 1) = new L[k] :=
      fun k hk => (h₁.log k hk hk).1
    have hsame₀ : SameBut ls s₁.disk s₁.disk := fun _ _ _ => rfl
    have hcommitted : ∀ x, Committed ls L old new (writeSector (writeSector s₁.disk ls 0
        (half (encodeHeader L x) 0)) ls 1 (half (encodeHeader L x) 1)) := fun x =>
      hI₁.commit hls hlen hlog ((hsame₀.writeSector hls' (by omega)).writeSector hls' (by omega))
        (decodeHeader_write_both hls' hlen hlt)
    refine WP.alone_bind (writeHead_wp h₁.wf hls' (.inl trivial) (.inl hI₁) (fun x => ?_)
      (fun x => ?_) fun s₂ x h₂ hlh₂ hd₂ => ?_)
    · rw [h₁.lh]
      exact .inr (.inl (hI₁.commit hls hlen hlog (hsame₀.writeSector hls' (by omega))
        (decodeHeader_write hls' hlen hlt)))
    · rw [h₁.lh]
      exact .inr (.inl (hcommitted x))
    -- install_trans
    rw [h₁.lh] at hlh₂ hd₂
    have hI₂ : Committed ls L old new s₂.disk := hd₂ ▸ hcommitted x
    unfold installTrans
    simp only [Prog.lift_bind, Prog.act_bind]
    refine WP.alone_ok (.inr (.inl hI₂)) rfl (WP.alone_bind ?_)
    rw [hlh₂]
    refine WP.alone_weaken (fun s h => .inr (.inl h)) (installLoop_wp hls hlen hhome hnd
      (fun s₃ h₃ hI₃ hm₃ => ?_) L 0 s₂ rfl (Nat.zero_le _) ⟨h₂.wf, hlh₂, fun k hk => ?_,
        fun k _ hk => absurd hk (Nat.not_lt_zero k)⟩ hI₂ (.inl trivial))
    · exact WP.alone_weaken (fun s h => .inr h) (eraseHead_wp hls hsame h₃ hI₃ hm₃
        fun s' hc hl => ⟨hc, hl⟩)
    · refine h₂.synced _ _ (by omega) ?_ (h₁.log k hk hk)
      simp only [logblocks] at hls hlen
      omega
  · rw [if_neg hn]
    have hnil : L = [] := List.length_eq_zero_iff.1 (by omega)
    subst hnil
    refine WP.alone_ret _ (.inl hclean) ⟨⟨hclean.header, fun b hb => ?_⟩, hL⟩
    rw [hclean.home b hb, hsame b (by simp)]

/-! ## Recovery -/

/-- A machine that has booted from device `d` and not begun to recover: nothing is in use, and what
the cache holds it has read. -/
structure Boot (d : Disk) (s : BlockSt) : Prop where
  disk : s.disk = d
  wf : CacheWF s
  idle : Idle s
  synced : ∀ b, Synced s b (blockAt d b)

/-- **`recover_from_log` on a clean device** changes no block outside the log. -/
theorem recover_clean_wp {v : ℕ → Block} {d : Disk} (hls : ls < 2 ^ 31) (hb : Boot d s)
    (hI : Clean ls v d) :
    WP (alone (fun s => Clean ls v s.disk) False) t (recoverFromLog ls)
      (fun _ s' => Clean ls v s'.disk) s := by
  obtain ⟨rfl, hwf, hidle, hsync⟩ := hb
  unfold recoverFromLog installTrans
  refine WP.alone_bind (readHead_wp hwf hI (.inr hidle) (hsync ls) fun s₁ h₁ hd₁ hlh₁ => ?_)
  rw [← hd₁] at hI
  rw [← hd₁, hI.header] at hlh₁
  simp only [Prog.lift_bind, Prog.act_bind]
  refine WP.alone_ok hI rfl ?_
  rw [hlh₁]
  have hsame : SameBut ls s₁.disk s₁.disk := fun _ _ _ => rfl
  have hkeep : ∀ {d'}, SameBut ls s₁.disk d' → decodeHeader (blockAt d' ls) = [] → Clean ls v d' :=
    fun hd hh => ⟨hh, fun b hb => by rw [hd b hb.1 (hb.ne inLog_header), hI.home b hb]⟩
  have hboth : ∀ x, Clean ls v (writeSector (writeSector s₁.disk ls 0
      (half (encodeHeader [] x) 0)) ls 1 (half (encodeHeader [] x) 1)) := fun x =>
    hkeep ((hsame.writeSector hls (by omega)).writeSector hls (by omega))
      (decodeHeader_write_both hls (by simp) (by simp))
  refine WP.alone_ok hI rfl (writeHead_wp ⟨h₁.wf.uniq, h₁.wf.mem_lru⟩ hls (.inr (h₁.idle hidle)) hI
    (fun x => ?_) hboth fun s' x _ _ hd => ?_)
  · exact hkeep (hsame.writeSector hls (by omega)) (decodeHeader_write hls (by simp) (by simp))
  · rw [hd]
    exact hboth x

/-- **`recover_from_log` on a committed device** installs the transaction. -/
theorem recover_committed_wp {d : Disk} (hls : ls + logblocks < 2 ^ 31)
    (hlen : L.length ≤ logblocks) (hhome : ∀ b ∈ L, Home ls b) (hnd : L.Nodup)
    (hsame : ∀ b, b ∉ L → new b = old b) (hb : Boot d s) (hI : Committed ls L old new d) :
    WP (alone (fun s => Committed ls L old new s.disk ∨ Clean ls new s.disk) False) t
      (recoverFromLog ls) (fun _ s' => Clean ls new s'.disk) s := by
  obtain ⟨rfl, hwf, hidle, hsync⟩ := hb
  unfold recoverFromLog installTrans
  refine WP.alone_bind (readHead_wp (I := fun d => Committed ls L old new d ∨ Clean ls new d) hwf
    (.inl hI) (.inr hidle) (hsync ls) fun s₁ h₁ hd₁ hlh₁ => ?_)
  rw [hI.header] at hlh₁
  rw [← hd₁] at hI
  simp only [Prog.lift_bind, Prog.act_bind]
  refine WP.alone_ok (.inl hI) rfl (WP.alone_bind ?_)
  rw [hlh₁]
  refine WP.alone_weaken (fun s h => .inl h) (installLoop_wp hls hlen hhome hnd
    (fun s₂ h₂ hI₂ hm₂ => ?_) L 0 s₁ rfl (Nat.zero_le _) ⟨h₁.wf, hlh₁, fun k hk => ?_,
      fun k _ hk => absurd hk (Nat.not_lt_zero k)⟩ hI (.inr ⟨rfl, h₁.idle hidle⟩))
  · exact eraseHead_wp hls hsame h₂ hI₂ hm₂ fun s' hc _ => hc
  · simp only [logblocks] at hls hlen
    have hs := h₁.synced _ _ (by omega) (by omega) (hsync (ls + k + 1))
    rwa [← hd₁, hI.log k hk] at hs

/-- From any phase of `commit`, recovery stays in the phases, completes, and ends clean. -/
theorem recover_wp {d : Disk} (hls : ls + logblocks < 2 ^ 31)
    (hlen : L.length ≤ logblocks) (hhome : ∀ b ∈ L, Home ls b) (hnd : L.Nodup)
    (hsame : ∀ b, b ∉ L → new b = old b) (hb : Boot d s) (hI : Phase ls L old new d) :
    WP (alone (fun s => Phase ls L old new s.disk) False) t (recoverFromLog ls)
      (fun _ s' => Clean ls old s'.disk ∨ Clean ls new s'.disk) s := by
  have hls' : ls < 2 ^ 31 := by omega
  rcases hI with hI | hI | hI
  · exact WP.alone_weaken (fun s h => .inl h)
      ((recover_clean_wp hls' hb hI).mono fun _ _ h => .inl h)
  · exact WP.alone_weaken (fun s h => .inr h)
      ((recover_committed_wp hls hlen hhome hnd hsame hb hI).mono fun _ _ h => .inr h)
  · exact WP.alone_weaken (fun s h => .inr (.inr h))
      ((recover_clean_wp hls' hb hI).mono fun _ _ h => .inr h)

/-- The machine boots from device `d` and crashes in `recover_from_log`, leaving device `d'`. -/
def CrashInRecovery (ls : ℕ) (d d' : Disk) : Prop :=
  ∃ t s p s', Boot d s ∧ Prog.Runs t (recoverFromLog ls) s p s' ∧ s'.disk = d'

/-- A property of the device that recovery keeps at every point survives any number of crashes. -/
theorem crashes_keep {I : Disk → Prop} {d d' : Disk} {Q : Unit → BlockSt → Prop}
    (hrec : ∀ t s d, Boot d s → I d →
      WP (alone (fun s => I s.disk) False) t (recoverFromLog ls) Q s)
    (hI : I d) (hc : Relation.ReflTransGen (CrashInRecovery ls) d d') : I d' := by
  induction hc with
  | refl => exact hI
  | tail _ hstep ih =>
    obtain ⟨t, s, p, s', hb, hr, rfl⟩ := hstep
    have := WP.alone_inv hr (hrec t s _ hb ih)
    exact this

end Programs

/-- **Crash atomicity.** From a state whose header is empty and whose logged blocks are cached and
pinned, `commit` runs to any point `p'` and the machine crashes, then crashes any number of times
while it recovers. The next recovery completes, and however it completes the header is empty and
the blocks outside the log hold all of the transaction or none of it; all of it if `commit` had
returned. -/
theorem commit_crash_atomic {ls : ℕ} (hls : ls + logblocks < 2 ^ 31) {s : BlockSt}
    (hwf : CacheWF s) (hhdr : decodeHeader (blockAt s.disk ls) = []) (hnd : s.lh.Nodup)
    (hlen : s.lh.length ≤ logblocks) (hhome : ∀ b ∈ s.lh, Home ls b) {logged : ℕ → Block}
    (hpins : ∀ b ∈ s.lh, Pinned s b (logged b)) {t : Tid} {p' : Prog BlockSt Unit} {s' : BlockSt}
    (hrun : Prog.Runs t (commit ls) s p' s') {d : Disk}
    (hcrash : Relation.ReflTransGen (CrashInRecovery ls) s'.disk d) {u : Tid} {boot : BlockSt}
    (hboot : Boot d boot) :
    (∃ sF, Prog.Runs u (recoverFromLog ls) boot (.ret ()) sF) ∧
    ∀ sF, Prog.Runs u (recoverFromLog ls) boot (.ret ()) sF →
      decodeHeader (blockAt sF.disk ls) = [] ∧
      ((∀ b, Home ls b → blockAt sF.disk b = blockAt s.disk b) ∨
        ∀ b, Home ls b → blockAt sF.disk b = if b ∈ s.lh then logged b else blockAt s.disk b) ∧
      (p' = .ret () →
        ∀ b, Home ls b → blockAt sF.disk b = if b ∈ s.lh then logged b else blockAt s.disk b) := by
  let new : ℕ → Block := fun b => if b ∈ s.lh then logged b else blockAt s.disk b
  have hsame : ∀ b, b ∉ s.lh → new b = blockAt s.disk b := fun b hb => if_neg hb
  have hcommit := commit_wp (t := t) hls hlen hhome hnd hsame hwf
    (fun b hb => by simpa only [new, if_pos hb] using hpins b hb) ⟨hhdr, fun b _ => rfl⟩
  have hrec : ∀ t s d, Boot d s → Phase ls _ _ new d → _ := fun t s d hb hI =>
    recover_wp (t := t) hls hlen hhome hnd hsame hb hI
  have hstop := WP.alone_inv hrun hcommit
  have hphase : Phase ls s.lh (blockAt s.disk) new d := crashes_keep hrec hstop hcrash
  refine ⟨?_, fun sF hF => ?_⟩
  · obtain ⟨_, sF, hF⟩ := WP.alone_total (hrec u boot d hboot hphase)
    exact ⟨sF, hF⟩
  · have hclean := WP.alone_post hF (hrec u boot d hboot hphase)
    refine ⟨hclean.elim Clean.header Clean.header, hclean.imp Clean.home Clean.home, ?_⟩
    rintro rfl
    -- a device that is clean with the new contents stays so
    have hnew : ∀ t s d, Boot d s → Clean ls new d → _ := fun t s d hb hI =>
      recover_clean_wp (t := t) (by omega) hb hI
    exact (WP.alone_post hF (hnew u boot d hboot
      (crashes_keep hnew (WP.alone_post hrun hcommit).1 hcrash))).home

/-- A transaction of one block: block 40, pinned in buffer 0 with every byte 7. -/
def oneBlock : BlockSt :=
  { (binit fun _ => .zero _).setBuf 0 ⟨true, rootdev, 40, none, 1, .ofFn _ fun _ => 7⟩ with
    lh := [40] }

theorem oneBlock_buf {i : BufId} (h : i ≠ 0) : (oneBlock.buf i).dev = 0 := by
  simp [oneBlock, setBuf, h, binit]

theorem oneBlock_wf : CacheWF oneBlock := by
  have hzero : ∀ i b, oneBlock.Carries i rootdev b → i = 0 := fun i b hc => by
    by_contra h
    simp [Carries, oneBlock_buf h] at hc
  refine ⟨fun i j b hi hj => (hzero i b hi).trans (hzero j b hj).symm, fun i => ?_⟩
  simp [oneBlock, setBuf, binit]

theorem boot_binit (d : Disk) : Boot d (binit d) := by
  refine ⟨rfl, ⟨fun i j b hi => ?_, fun i => by simp [binit]⟩, fun i => ⟨rfl, rfl⟩, fun b => ⟨rfl, ?_⟩⟩
  · simp [Carries, binit] at hi
  · simp [binit]

theorem commit_crash_atomic_oneBlock : ∃ s' sF, Prog.Runs 0 (commit 2) oneBlock (.ret ()) s' ∧
    Prog.Runs 0 (recoverFromLog 2) (binit s'.disk) (.ret ()) sF ∧
    blockAt sF.disk 40 = .ofFn _ fun _ => 7 := by
  have hok : ((commit 2).exec 0 oneBlock).value = some () := by decide +kernel
  obtain ⟨s', hs'⟩ := Outcome.value_eq_some.1 hok
  have hrun := Prog.runs_of_exec hs'
  have hhdr : decodeHeader (blockAt oneBlock.disk 2) = [] := by decide +kernel
  have hpins : ∀ b ∈ oneBlock.lh, Pinned oneBlock b (.ofFn _ fun _ => 7) := fun b hb => by
    obtain rfl : b = 40 := by simpa [oneBlock] using hb
    exact ⟨0, by simp [Carries, oneBlock], by simp [oneBlock], by simp [oneBlock], by simp [oneBlock]⟩
  have hhome : ∀ b ∈ oneBlock.lh, Home 2 b := fun b hb => by
    obtain rfl : b = 40 := by simpa [oneBlock] using hb
    simp [Home, InLog, logblocks]
  obtain ⟨⟨sF, hF⟩, hall⟩ := commit_crash_atomic (u := 0) (by decide) oneBlock_wf hhdr
    (by simp [oneBlock]) (by simp [oneBlock]) hhome hpins hrun .refl (boot_binit s'.disk)
  refine ⟨s', sF, hrun, hF, ?_⟩
  have := (hall sF hF).2.2 rfl 40 (hhome 40 (by simp [oneBlock]))
  rwa [if_pos (by simp [oneBlock])] at this

end Xv6
