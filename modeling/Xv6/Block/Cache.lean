import Xv6.Block.Log

/-!
# What the operations of the buffer cache do

The specifications of `bread`, `bwrite` and `brelse` for a thread that runs alone, with an
invariant of the device that has to hold at every sector write. `Got` says what `bread` has done
when it returns, `Released` what `brelse` has done. `bread` returns, rather than sleeping or
panicking, when `Ready` holds.
-/

namespace Xv6

open Conc BlockSt

/-- The cache is well formed: at most one buffer for a block, and every buffer on the list. -/
structure CacheWF (s : BlockSt) : Prop where
  uniq : ∀ i j b, s.Carries i rootdev b → s.Carries j rootdev b → i = j
  mem_lru : ∀ i, i ∈ s.lru

/-- No buffer is referenced or locked. -/
def Idle (s : BlockSt) : Prop := ∀ i, (s.buf i).refcnt = 0 ∧ (s.buf i).lock = none

/-- `bread` of block `b` neither sleeps nor panics. -/
structure Ready (s : BlockSt) (b : ℕ) : Prop where
  found : (∃ i, s.Carries i rootdev b) ∨ ∃ i, (s.buf i).refcnt = 0
  unlocked : ∀ i, s.Carries i rootdev b ∨ (s.buf i).refcnt = 0 → (s.buf i).lock = none

/-- The state `s'` in which thread `t` has got buffer `i` for block `b`. -/
structure Got (s : BlockSt) (t : Tid) (b : ℕ) (i : BufId) (s' : BlockSt) : Prop where
  wf : CacheWF s'
  disk : s'.disk = s.disk
  lh : s'.lh = s.lh
  carries : s'.Carries i rootdev b
  valid : (s'.buf i).valid = true
  lock : (s'.buf i).lock = some t
  refcnt : (s'.buf i).refcnt = (s.buf i).refcnt + 1
  was : s.Carries i rootdev b ∨ (s.buf i).refcnt = 0
  data : s.Carries i rootdev b ∧ (s.buf i).valid = true ∧ (s'.buf i).data = (s.buf i).data ∨
    (∀ j, s.Carries j rootdev b → (s.buf j).valid = false) ∧ (s'.buf i).data = blockAt s.disk b
  other : ∀ j, j ≠ i → s'.buf j = s.buf j

/-- The state `s'` after the release of buffer `i`. -/
structure Released (s : BlockSt) (i : BufId) (s' : BlockSt) : Prop where
  wf : CacheWF s'
  disk : s'.disk = s.disk
  lh : s'.lh = s.lh
  buf : s'.buf i = { s.buf i with lock := none, refcnt := (s.buf i).refcnt - 1 }
  other : ∀ j, j ≠ i → s'.buf j = s.buf j

section Alone

variable {I : Disk → Prop} {may : Prop} {t : Tid} {s : BlockSt}

@[simp] theorem setBuf_buf_self (s : BlockSt) (i : BufId) (x : Buf) : (s.setBuf i x).buf i = x := by
  simp [setBuf]

theorem setBuf_buf_of_ne (s : BlockSt) {i j : BufId} (x : Buf) (h : j ≠ i) :
    (s.setBuf i x).buf j = s.buf j := by
  simp [setBuf, h]

@[simp] theorem setBuf_disk (s : BlockSt) (i : BufId) (x : Buf) : (s.setBuf i x).disk = s.disk := rfl

@[simp] theorem setBuf_lh (s : BlockSt) (i : BufId) (x : Buf) : (s.setBuf i x).lh = s.lh := rfl

@[simp] theorem setBuf_lru (s : BlockSt) (i : BufId) (x : Buf) : (s.setBuf i x).lru = s.lru := rfl

@[simp] theorem setBuf_aux (s : BlockSt) (i : BufId) (x : Buf) : (s.setBuf i x).aux = s.aux := rfl

@[simp] theorem setUsers_buf (s : BlockSt) (i : BufId) (us : List Tid) :
    (s.setUsers i us).buf = s.buf := rfl

@[simp] theorem setUsers_disk (s : BlockSt) (i : BufId) (us : List Tid) :
    (s.setUsers i us).disk = s.disk := rfl

@[simp] theorem setUsers_lh (s : BlockSt) (i : BufId) (us : List Tid) :
    (s.setUsers i us).lh = s.lh := rfl

@[simp] theorem setUsers_lru (s : BlockSt) (i : BufId) (us : List Tid) :
    (s.setUsers i us).lru = s.lru := rfl

/-- A change of one buffer that keeps its block keeps the cache well formed. -/
theorem CacheWF.of_setBuf {s' : BlockSt} {i : BufId} (h : CacheWF s)
    (hdev : (s'.buf i).dev = (s.buf i).dev) (hno : (s'.buf i).blockno = (s.buf i).blockno)
    (hother : ∀ j, j ≠ i → s'.buf j = s.buf j) (hlru : ∀ j, j ∈ s'.lru) : CacheWF s' := by
  have hc : ∀ j b, s'.Carries j rootdev b → s.Carries j rootdev b := by
    intro j b hj
    by_cases hji : j = i
    · subst hji
      exact ⟨hdev ▸ hj.1, hno ▸ hj.2⟩
    · simpa only [Carries, hother j hji] using hj
  exact ⟨fun j k b hj hk => h.uniq j k b (hc j b hj) (hc k b hk), hlru⟩

/-- A recycled buffer is the only one of its new block, and left its old one. -/
theorem CacheWF.recycle {s' : BlockSt} {i : BufId} {b : ℕ} (h : CacheWF s)
    (hn : ∀ j, ¬ s.Carries j rootdev b) (hi : (s'.buf i).blockno = b)
    (hother : ∀ j, j ≠ i → s'.buf j = s.buf j) (hlru : ∀ j, j ∈ s'.lru) : CacheWF s' := by
  have hc : ∀ j c, j ≠ i → s'.Carries j rootdev c → s.Carries j rootdev c := fun j c hj hc => by
    simpa only [Carries, hother j hj] using hc
  have hnew : ∀ j c, j ≠ i → s'.Carries j rootdev c → s'.Carries i rootdev c → False := by
    intro j c hj hjc hic
    have hbc : b = c := hi.symm.trans hic.2
    exact hn j (hbc ▸ hc j c hj hjc)
  refine ⟨fun j k c hj hk => ?_, hlru⟩
  by_cases hji : j = i <;> by_cases hki : k = i
  · rw [hji, hki]
  · exact (hnew k c hki hk (hji ▸ hj)).elim
  · exact (hnew j c hji hj (hki ▸ hk)).elim
  · exact h.uniq j k c (hc j c hji hj) (hc k c hki hk)

/-- Every buffer stays on the list when one moves to its front. -/
theorem CacheWF.mem_front (h : CacheWF s) (p : Prop) [Decidable p] (i j : BufId) :
    j ∈ if p then i :: s.lru.erase i else s.lru := by
  split
  · by_cases hji : j = i
    · simp [hji]
    · exact List.mem_cons_of_mem _ ((List.mem_erase_of_ne hji).2 (h.mem_lru j))
  · exact h.mem_lru j

/-- What `bget` finds under the lock of the cache. -/
theorem bgetRef_ok {dev b : ℕ} {i : BufId} {s' : BlockSt} (h : bgetRef dev b t s = .ok i s') :
    (s.Carries i dev b ∧ s' = (s.setBuf i { s.buf i with refcnt := (s.buf i).refcnt + 1 }).setUsers i
      (t :: s.aux.users i)) ∨
    ((∀ j ∈ s.lru, ¬ s.Carries j dev b) ∧ (s.buf i).refcnt = 0 ∧ s' = (s.setBuf i { s.buf i with
      dev := dev, blockno := b, valid := false, refcnt := 1 }).setUsers i [t]) := by
  unfold bgetRef at h
  split at h
  · rename_i j hj
    obtain ⟨rfl, rfl⟩ : j = i ∧ _ = s' := by simpa using h
    have hc := List.find?_some hj
    exact .inl ⟨by simpa using hc, rfl⟩
  · rename_i hn
    split at h
    · rename_i j hj
      obtain ⟨rfl, rfl⟩ : j = i ∧ _ = s' := by simpa using h
      have hc := List.find?_some hj
      refine .inr ⟨fun k hk => ?_, by simpa using hc, rfl⟩
      simpa using List.find?_eq_none.1 hn k hk
    · simp at h

theorem bgetRef_ne_panic (hwf : CacheWF s) {b : ℕ} (hr : Ready s b) :
    ∃ i s', bgetRef rootdev b t s = .ok i s' := by
  unfold bgetRef
  split
  · exact ⟨_, _, rfl⟩
  · rename_i hn
    split
    · exact ⟨_, _, rfl⟩
    · rename_i hn'
      exfalso
      rcases hr.found with ⟨i, hi⟩ | ⟨i, hi⟩
      · simpa [hi] using List.find?_eq_none.1 hn i (hwf.mem_lru i)
      · simpa [hi] using List.find?_eq_none.1 hn' i (List.mem_reverse.2 (hwf.mem_lru i))

/-- The section of `bget` under the lock of the cache, and the two sections that follow it, as one
change of one buffer. -/
theorem bread_got (hwf : CacheWF s) {b : ℕ} {i : BufId} {s₁ s₂ s₃ : BlockSt}
    (h₁ : bgetRef rootdev b t s = .ok i s₁) (h₂ : acquireBuf i t s₁ = .ok () s₂)
    (h₃ : fillBuf i t s₂ = .ok () s₃) : Got s t b i s₃ := by
  have hlock : s₂ = s₁.setBuf i { s₁.buf i with lock := some t } := by
    unfold acquireBuf at h₂
    split at h₂ <;> simp at h₂
    exact h₂.symm
  have hfill : (if (s₂.buf i).valid then s₂ else
      s₂.setBuf i { s₂.buf i with valid := true, data := blockAt s₂.disk (s₂.buf i).blockno }) = s₃ := by
    simpa [fillBuf] using h₃
  rcases bgetRef_ok h₁ with ⟨hc, rfl⟩ | ⟨hn, hz, rfl⟩
  · by_cases hv : (s.buf i).valid = true
    · have hs₃ : s₂ = s₃ := by rw [← hfill, if_pos (by simp [hlock, hv])]
      subst hs₃ hlock
      refine ⟨?_, rfl, rfl, by simpa [Carries] using hc, by simp [hv], by simp, by simp, .inl hc,
        .inl ⟨hc, hv, by simp⟩, fun j hj => by simp [setBuf, hj]⟩
      exact hwf.of_setBuf (i := i) (by simp) (by simp) (fun j hj => by simp [setBuf, hj]) hwf.mem_lru
    · have hs₃ := hfill
      rw [if_neg (by simp [hlock, hv])] at hs₃
      subst hs₃ hlock
      refine ⟨?_, rfl, rfl, by simpa [Carries] using hc, by simp, by simp, by simp, .inl hc,
        .inr ⟨fun j hj => ?_, by simp [hc.2]⟩, fun j hj => by simp [setBuf, hj]⟩
      · exact hwf.of_setBuf (i := i) (by simp) (by simp) (fun j hj => by simp [setBuf, hj])
          hwf.mem_lru
      · rw [hwf.uniq j i b hj hc]
        simpa using hv
  · have hs₃ := hfill
    rw [if_neg (by simp [hlock])] at hs₃
    subst hs₃ hlock
    have hn' : ∀ j, ¬ s.Carries j rootdev b := fun j => hn j (hwf.mem_lru j)
    refine ⟨?_, rfl, rfl, by simp [Carries], by simp, by simp,
      by simp [hz], .inr hz, .inr ⟨fun j hj => absurd hj (hn' j), by simp⟩,
      fun j hj => by simp [setBuf, hj]⟩
    exact hwf.recycle hn' (i := i) (by simp) (fun j hj => by simp [setBuf, hj]) hwf.mem_lru

/-- **`bread`, alone.** -/
theorem bread_wp {b : ℕ} {Q : BufId → BlockSt → Prop} (hwf : CacheWF s) (hI : I s.disk)
    (hm : may ∨ Ready s b) (hQ : ∀ i s', Got s t b i s' → Q i s') :
    WP (alone (fun s => I s.disk) may) t (bread rootdev b) Q s := by
  unfold bread bget
  simp only [Prog.lift_bind, Prog.act_bind, Prog.ret_bind, Prog.pure_eq]
  by_cases hmay : may
  · refine WP.alone_act hmay hI fun i s₁ h₁ => ?_
    have hd₁ : s₁.disk = s.disk := by
      rcases bgetRef_ok h₁ with ⟨-, rfl⟩ | ⟨-, -, rfl⟩ <;> rfl
    refine WP.alone_act hmay (hd₁ ▸ hI) fun _ s₂ h₂ => ?_
    have hd₂ : s₂.disk = s.disk := by
      unfold acquireBuf at h₂
      split at h₂ <;> simp at h₂
      rw [← h₂, setBuf_disk, hd₁]
    refine WP.alone_act hmay (hd₂ ▸ hI) fun _ s₃ h₃ => ?_
    have hg := bread_got hwf h₁ h₂ h₃
    exact WP.alone_ret _ (hg.disk ▸ hI) (hQ _ _ hg)
  · have hr := hm.resolve_left hmay
    obtain ⟨i, s₁, h₁⟩ := bgetRef_ne_panic (t := t) hwf hr
    have hlock : (s₁.buf i).lock = none := by
      rcases bgetRef_ok h₁ with ⟨hc, rfl⟩ | ⟨-, hz, rfl⟩
      · simpa using hr.unlocked i (.inl hc)
      · simpa using hr.unlocked i (.inr hz)
    have hd₁ : s₁.disk = s.disk := by
      rcases bgetRef_ok h₁ with ⟨-, rfl⟩ | ⟨-, -, rfl⟩ <;> rfl
    have h₂ : acquireBuf i t s₁ = .ok () (s₁.setBuf i { s₁.buf i with lock := some t }) := by
      simp [acquireBuf, hlock]
    have hg := bread_got hwf h₁ h₂ rfl
    exact WP.alone_ok hI h₁ (WP.alone_ok (hd₁ ▸ hI) h₂ (WP.alone_ok (hd₁ ▸ hI) rfl
      (WP.alone_ret _ (hg.disk ▸ hI) (hQ _ _ hg))))

/-- **`bwrite`, alone**: the invariant of the device has to survive each sector. -/
theorem bwrite_wp {i : BufId} {Q : Unit → BlockSt → Prop} (hlock : (s.buf i).lock = some t)
    (hI : I s.disk) (hI₀ : I (writeSector s.disk (s.buf i).blockno 0 (half (s.buf i).data 0)))
    (hI₁ : I (writeSector (writeSector s.disk (s.buf i).blockno 0 (half (s.buf i).data 0))
      (s.buf i).blockno 1 (half (s.buf i).data 1)))
    (hQ : Q () { s with disk := writeSector (writeSector s.disk (s.buf i).blockno 0
      (half (s.buf i).data 0)) (s.buf i).blockno 1 (half (s.buf i).data 1) }) :
    WP (alone (fun s => I s.disk) may) t (bwrite i) Q s := by
  unfold bwrite
  simp only [Prog.lift_bind]
  have hc : checkHolding i "bwrite" t s = .ok () s := by simp [checkHolding, hlock]
  refine WP.alone_ok hI hc (WP.alone_ok hI rfl ?_)
  exact WP.alone_ok hI₀ rfl (WP.alone_ret _ hI₁ hQ)

/-- **`brelse`, alone.** -/
theorem brelse_wp {i : BufId} {Q : Unit → BlockSt → Prop} (hwf : CacheWF s)
    (hlock : (s.buf i).lock = some t) (hI : I s.disk) (hQ : ∀ s', Released s i s' → Q () s') :
    WP (alone (fun s => I s.disk) may) t (brelse i) Q s := by
  unfold brelse
  simp only [Prog.lift_bind]
  have hr : releaseBuf i t s = .ok () (s.setBuf i { s.buf i with lock := none }) := by
    simp [releaseBuf, hlock]
  refine WP.alone_ok hI hr (WP.alone_ok hI rfl (WP.alone_ret _ hI (hQ _ ?_)))
  refine ⟨?_, rfl, rfl, by simp, fun j hj => by simp [setBuf, hj]⟩
  refine hwf.of_setBuf (i := i) (by simp) (by simp) (fun j hj => by simp [setBuf, hj]) fun j => ?_
  simpa using hwf.mem_front _ i j

end Alone

end Xv6
