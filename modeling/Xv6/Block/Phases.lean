import Xv6.Block.Cache

/-!
# What is known of a block, and the phases of the device

A block is known through the cache (`Pinned`, `Synced`) or through the device. A crash keeps the device and loses everything else. The device is, at every point of `commit` and
of `recover_from_log`, in one of three phases: clean with the old home blocks, committed (the
header lists the transaction, the log holds its blocks, and every home sector is old or new), or
clean with the new home blocks. The sector write that turns the first phase into the second is the
first sector of the header, and the one that turns the second into the third is the first sector of
the erased header. Recovery from a committed device installs the log again, so it does not matter
how far an earlier installation came.
-/

namespace Xv6

open Conc BlockSt

/-! ## Blocks known through the cache -/

/-- Block `b` is cached and referenced, with contents `x`. -/
def Pinned (s : BlockSt) (b : ℕ) (x : Block) : Prop :=
  ∃ i, s.Carries i rootdev b ∧ (s.buf i).valid = true ∧ 1 ≤ (s.buf i).refcnt ∧ (s.buf i).data = x

/-- Block `b` has contents `x`, on the device and in every valid copy. -/
def Synced (s : BlockSt) (b : ℕ) (x : Block) : Prop :=
  blockAt s.disk b = x ∧
    ∀ i, s.Carries i rootdev b → (s.buf i).valid = true → (s.buf i).data = x

section Facts

variable {s s' : BlockSt} {t : Tid} {b c : ℕ} {x y : Block} {i j : BufId}

theorem Carries.of_buf_eq (h : s'.buf i = s.buf i) : s'.Carries i rootdev b ↔ s.Carries i rootdev b := by
  rw [Carries, Carries, h]

theorem Got.pinned (h : Got s t c i s') (hp : Pinned s b x) : Pinned s' b x := by
  obtain ⟨j, hc, hv, hr, hd⟩ := hp
  by_cases hji : j = i
  · subst hji
    have hcb : s.Carries j rootdev c := h.was.resolve_right (by omega)
    have hbc : b = c := hc.2.symm.trans hcb.2
    subst hbc
    refine ⟨j, h.carries, h.valid, by have := h.refcnt; omega, ?_⟩
    rcases h.data with ⟨-, -, hd'⟩ | ⟨hn, -⟩
    · rw [hd', hd]
    · simp [hn j hc] at hv
  · refine ⟨j, (Carries.of_buf_eq (h.other j hji)).2 hc, ?_, ?_, ?_⟩ <;> rw [h.other j hji] <;>
      assumption

/-- `bread` of a pinned block gives its contents. -/
theorem Got.data_of_pinned (h : Got s t b i s') (hwf : CacheWF s) (hp : Pinned s b x) :
    (s'.buf i).data = x := by
  obtain ⟨j, hc, hv, -, hd⟩ := hp
  rcases h.data with ⟨hci, -, hd'⟩ | ⟨hn, -⟩
  · rw [hd', hwf.uniq i j b hci hc, hd]
  · simp [hn j hc] at hv

theorem Got.data_of_synced (h : Got s t b i s') (hp : Synced s b x) : (s'.buf i).data = x := by
  rcases h.data with ⟨hci, hv, hd⟩ | ⟨-, hd⟩
  · rw [hd, hp.2 i hci hv]
  · rw [hd, hp.1]

theorem Got.synced (h : Got s t c i s') (hp : Synced s b x) : Synced s' b x := by
  refine ⟨by rw [h.disk, hp.1], fun j hc hv => ?_⟩
  by_cases hji : j = i
  · subst hji
    have hbc : b = c := hc.2.symm.trans h.carries.2
    subst hbc
    exact h.data_of_synced hp
  · rw [h.other j hji] at hv ⊢
    exact hp.2 j ((Carries.of_buf_eq (h.other j hji)).1 hc) hv

theorem Released.carries (h : Released s i s') (j : BufId) :
    s'.Carries j rootdev b ↔ s.Carries j rootdev b := by
  by_cases hji : j = i
  · subst hji
    simp [Carries, h.buf]
  · exact Carries.of_buf_eq (h.other j hji)

theorem Released.data (h : Released s i s') (j : BufId) :
    (s'.buf j).data = (s.buf j).data ∧ (s'.buf j).valid = (s.buf j).valid := by
  by_cases hji : j = i
  · subst hji
    simp [h.buf]
  · simp [h.other j hji]

theorem Released.synced (h : Released s i s') (hp : Synced s b x) : Synced s' b x := by
  refine ⟨by rw [h.disk, hp.1], fun j hc hv => ?_⟩
  rw [(h.data j).1]
  exact hp.2 j ((h.carries j).1 hc) ((h.data j).2 ▸ hv)

/-- The release of a buffer keeps a pin that is not the released reference. -/
theorem Released.pinned (h : Released s i s') (hp : Pinned s b x)
    (hi : s.Carries i rootdev b → 2 ≤ (s.buf i).refcnt) : Pinned s' b x := by
  obtain ⟨j, hc, hv, hr, hd⟩ := hp
  refine ⟨j, (h.carries j).2 hc, (h.data j).2 ▸ hv, ?_, (h.data j).1 ▸ hd⟩
  by_cases hji : j = i
  · subst hji
    have := hi hc
    simp only [h.buf]
    omega
  · rw [h.other j hji]
    exact hr

/-- The state after the stores `x` to buffer `i` and its write to the device. -/
def stored (s : BlockSt) (i : BufId) (x : Block) : BlockSt :=
  { s.setBuf i { s.buf i with data := x } with
    disk := writeSector (writeSector s.disk (s.buf i).blockno 0 (half x 0)) (s.buf i).blockno 1
      (half x 1) }

theorem stored_buf (s : BlockSt) (i : BufId) (x : Block) (j : BufId) :
    (stored s i x).buf j = if j = i then { s.buf i with data := x } else s.buf j := by
  simp only [stored, setBuf]
  split
  · rename_i h
    simp [h]
  · rename_i h
    simp [h]

theorem carries_stored : (stored s i x).Carries j rootdev b ↔ s.Carries j rootdev b := by
  unfold Carries
  rw [stored_buf]
  split
  · rename_i h
    rw [h]
  · rfl

theorem CacheWF.stored (h : CacheWF s) : CacheWF (stored s i x) :=
  ⟨fun j k b hj hk => h.uniq j k b (carries_stored.1 hj) (carries_stored.1 hk), h.mem_lru⟩

theorem blockAt_stored_of_ne (hc : (s.buf i).blockno < 2 ^ 31) (hb : b < 2 ^ 31)
    (hne : b ≠ (s.buf i).blockno) : blockAt (stored s i x).disk b = blockAt s.disk b := by
  simp only [Xv6.stored]
  rw [blockAt_writeSector_of_ne hc hb (by omega) hne, blockAt_writeSector_of_ne hc hb (by omega) hne]

theorem blockAt_stored (hc : (s.buf i).blockno < 2 ^ 31) :
    blockAt (stored s i x).disk (s.buf i).blockno = x :=
  blockAt_writeSector_both hc x

theorem Pinned.stored (hp : Pinned s b x) (hne : b ≠ (s.buf i).blockno) :
    Pinned (stored s i y) b x := by
  obtain ⟨j, hc, hv, hr, hd⟩ := hp
  have hji : j ≠ i := by
    rintro rfl
    exact hne hc.2.symm
  refine ⟨j, carries_stored.2 hc, ?_, ?_, ?_⟩ <;> rw [stored_buf, if_neg hji] <;> assumption

theorem Synced.stored (hp : Synced s b x) (hc : (s.buf i).blockno < 2 ^ 31) (hb : b < 2 ^ 31)
    (hne : b ≠ (s.buf i).blockno) : Synced (stored s i y) b x := by
  refine ⟨by rw [blockAt_stored_of_ne hc hb hne, hp.1], fun j hj hv => ?_⟩
  have hj' := carries_stored.1 hj
  have hji : j ≠ i := by
    rintro rfl
    exact hne hj'.2.symm
  rw [stored_buf, if_neg hji] at hv ⊢
  exact hp.2 j hj' hv

/-- A block that has just been written is synced. -/
theorem synced_stored (hwf : CacheWF s) (hi : s.Carries i rootdev b) (hb : b < 2 ^ 31) :
    Synced (stored s i x) b x := by
  refine ⟨?_, fun j hj _ => ?_⟩
  · rw [← hi.2]
    exact blockAt_stored (hi.2 ▸ hb)
  · rw [stored_buf, if_pos (hwf.uniq j i b (carries_stored.1 hj) hi)]

end Facts

/-- Store and write: `setBufData` followed by `bwrite`, alone. -/
theorem setBufData_bwrite_wp {I : Disk → Prop} {may : Prop} {t : Tid} {s : BlockSt} {i : BufId}
    {x : Block} {α : Type} {k : Unit → Prog BlockSt α} {Q : α → BlockSt → Prop}
    (hlock : (s.buf i).lock = some t) (hI : I s.disk)
    (hI₀ : I (writeSector s.disk (s.buf i).blockno 0 (half x 0))) (hI₁ : I (stored s i x).disk)
    (hk : WP (alone (fun s => I s.disk) may) t (k ()) Q (stored s i x)) :
    WP (alone (fun s => I s.disk) may) t
      (.act (setBufData i x) fun _ => bwrite i >>= k) Q s := by
  refine WP.alone_ok hI rfl (WP.alone_bind ?_)
  exact bwrite_wp (by simp [hlock]) hI (by simpa using hI₀)
    (by simpa [stored] using hI₁) (by simpa [stored] using hk)

/-- A loop over `L` at turn `tail`, with `b` next. -/
theorem of_drop_eq_cons {L : List ℕ} {tail b : ℕ} {bs : List ℕ} (h : L.drop tail = b :: bs) :
    ∃ hlt : tail < L.length, L[tail] = b ∧ L.drop (tail + 1) = bs := by
  have hlt : tail < L.length := by
    by_contra hge
    rw [List.drop_eq_nil_of_le (by omega)] at h
    cases h
  rw [List.drop_eq_getElem_cons hlt] at h
  exact ⟨hlt, List.cons.inj h⟩

/-! ## The phases of the device -/

section Phases

variable (ls : ℕ)

/-- The blocks of the log: the header and the `LOGBLOCKS` blocks after it. -/
def InLog (b : ℕ) : Prop := ls ≤ b ∧ b ≤ ls + logblocks

/-- The blocks outside the log. -/
def Home (b : ℕ) : Prop := b < 2 ^ 31 ∧ ¬ InLog ls b

/-- No transaction is committed, and the home blocks hold `v`. -/
structure Clean (v : ℕ → Block) (d : Disk) : Prop where
  header : decodeHeader (blockAt d ls) = []
  home : ∀ b, Home ls b → blockAt d b = v b

/-- The transaction `L` is committed: it is in the header and its contents are in the log. It may
have been installed in part. -/
structure Committed (L : List ℕ) (old new : ℕ → Block) (d : Disk) : Prop where
  header : decodeHeader (blockAt d ls) = L
  log : ∀ k (hk : k < L.length), blockAt d (ls + k + 1) = new L[k]
  home : ∀ b, Home ls b → ∀ h < 2, half (blockAt d b) h = half (old b) h ∨
    half (blockAt d b) h = half (new b) h

variable {ls}

theorem Home.ne {b c : ℕ} (hb : Home ls b) (hc : InLog ls c) : b ≠ c := by
  rintro rfl
  exact hb.2 hc

theorem inLog_header : InLog ls ls := ⟨le_refl _, Nat.le_add_right _ _⟩

theorem inLog_entry {k : ℕ} (hk : k < logblocks) : InLog ls (ls + k + 1) := ⟨by omega, by omega⟩

/-- A write outside the header and the home blocks keeps a clean device clean. -/
theorem Clean.of_blockAt {v : ℕ → Block} {d d' : Disk} (h : Clean ls v d)
    (hh : blockAt d' ls = blockAt d ls) (hd : ∀ b, Home ls b → blockAt d' b = blockAt d b) :
    Clean ls v d' := by
  refine ⟨?_, fun b hb => (hd b hb).trans (h.home b hb)⟩
  rw [hh]
  exact h.header

/-- The header after its first sector is written. -/
theorem decodeHeader_write {d : Disk} {L : List ℕ} {x : Block} (hls : ls < 2 ^ 31)
    (hL : L.length ≤ logblocks) (hb : ∀ b ∈ L, b < 2 ^ 32) :
    decodeHeader (blockAt (writeSector d ls 0 (half (encodeHeader L x) 0)) ls) = L := by
  have henc := decodeHeader_encodeHeader hL hb x
  have hhalf : half (encodeHeader L x) 0 =
      half (blockAt (writeSector d ls 0 (half (encodeHeader L x) 0)) ls) 0 := by
    rw [half_blockAt_writeSector hls hls (by omega) (by omega), if_pos ⟨rfl, rfl⟩]
  have hlen : (decodeHeader (encodeHeader L x)).length ≤ logblocks := by
    rw [henc]
    exact hL
  exact (decodeHeader_congr hhalf hlen).symm.trans henc

theorem decodeHeader_write_both {d : Disk} {L : List ℕ} {x : Block} (hls : ls < 2 ^ 31)
    (hL : L.length ≤ logblocks) (hb : ∀ b ∈ L, b < 2 ^ 32) :
    decodeHeader (blockAt (writeSector (writeSector d ls 0 (half (encodeHeader L x) 0)) ls 1
      (half (encodeHeader L x) 1)) ls) = L := by
  rw [blockAt_writeSector_both hls, decodeHeader_encodeHeader hL hb x]

/-- The devices `d` and `d'` differ in the header at most. -/
def SameBut (ls : ℕ) (d d' : Disk) : Prop := ∀ b, b < 2 ^ 31 → b ≠ ls → blockAt d' b = blockAt d b

theorem SameBut.writeSector {d d' : Disk} {h : ℕ} {x : Sector} (hd : SameBut ls d d')
    (hls : ls < 2 ^ 31) (hh : h < 2) : SameBut ls d (writeSector d' ls h x) := fun b hb hne => by
  rw [blockAt_writeSector_of_ne hls hb hh hne, hd b hb hne]

/-- **Commit**: with the log in place, the header makes a clean device committed. -/
theorem Clean.commit {L : List ℕ} {old new : ℕ → Block} {d d' : Disk}
    (hls : ls + logblocks < 2 ^ 31) (hL : L.length ≤ logblocks) (h : Clean ls old d)
    (hlog : ∀ k (hk : k < L.length), blockAt d (ls + k + 1) = new L[k])
    (hd : SameBut ls d d') (hh : decodeHeader (blockAt d' ls) = L) : Committed ls L old new d' := by
  simp only [logblocks] at hls hL
  refine ⟨hh, fun k hk => ?_, fun b hb h' _ => .inl ?_⟩
  · rw [hd _ (by omega) (by omega), hlog k hk]
  · rw [hd b hb.1 (hb.ne inLog_header), h.home b hb]

/-- **Erase**: with the transaction installed, the empty header makes a committed device clean. -/
theorem Committed.erase {L : List ℕ} {old new : ℕ → Block} {d d' : Disk}
    (h : Committed ls L old new d)
    (hdone : ∀ k (hk : k < L.length), blockAt d L[k] = new L[k]) (hsame : ∀ b, b ∉ L → new b = old b)
    (hd : SameBut ls d d') (hh : decodeHeader (blockAt d' ls) = []) : Clean ls new d' := by
  refine ⟨hh, fun b hb => ?_⟩
  rw [hd b hb.1 (hb.ne inLog_header)]
  by_cases hbL : b ∈ L
  · obtain ⟨k, hk, rfl⟩ := List.getElem_of_mem hbL
    exact hdone k hk
  · have hhalf : ∀ h' < 2, half (blockAt d b) h' = half (new b) h' := fun h' hh' => by
      rcases h.home b hb h' hh' with he | he
      · rw [he, hsame b hbL]
      · exact he
    exact block_ext (hhalf 0 (by omega)) (hhalf 1 (by omega))

end Phases

end Xv6
