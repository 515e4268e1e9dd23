import Mathlib.Data.Fintype.Card
import Xv6.Block.Ops
import Xv6.Block.Crash

/-!
# Buffers for a commit

`commit` copies each logged block through two buffers: the one `log_write` pinned, and one for a
block of the log. It therefore needs a buffer besides the pinned ones. The cache has as many
buffers (`NBUF`) as the log has room for blocks (`LOGBLOCKS`), so the commit of a full log finds
every buffer pinned and panics, and every other commit has the buffer it needs
(`commit_buffers_iff`).
-/

namespace Xv6

open Conc BlockSt

variable {ls : ℕ} {t : Tid} {s s' : BlockSt} {R : List ℕ}

/-! ## The cache between two turns of a commit -/

/-- No buffer is locked, and the buffers of the blocks of `R` have one reference each, the others
none. -/
structure Rest (R : List ℕ) (s : BlockSt) : Prop where
  wf : CacheWF s
  unlocked : ∀ i, (s.buf i).lock = none
  refcnt : ∀ i, (s.buf i).refcnt = if (s.buf i).dev = rootdev ∧ (s.buf i).blockno ∈ R then 1 else 0
  cached : ∀ b ∈ R, ∃ i, s.Carries i rootdev b

/-- The buffers in use. -/
def inUse (s : BlockSt) : Finset BufId := Finset.univ.filter fun i => (s.buf i).refcnt ≠ 0

theorem Rest.mem_inUse (h : Rest R s) {i : BufId} :
    i ∈ inUse s ↔ (s.buf i).dev = rootdev ∧ (s.buf i).blockno ∈ R := by
  rw [inUse, Finset.mem_filter, h.refcnt i]
  simp

/-- There are as many buffers in use as blocks. -/
theorem Rest.card_inUse (h : Rest R s) (hnd : R.Nodup) : (inUse s).card = R.length := by
  rw [← List.toFinset_card_of_nodup hnd]
  refine Finset.card_bij (fun i _ => (s.buf i).blockno) (fun i hi => ?_) (fun i hi j hj he => ?_)
    fun b hb => ?_
  · exact List.mem_toFinset.2 (h.mem_inUse.1 hi).2
  · exact h.wf.uniq i j _ ⟨(h.mem_inUse.1 hi).1, rfl⟩ ⟨(h.mem_inUse.1 hj).1, he.symm⟩
  · have hb := List.mem_toFinset.1 hb
    obtain ⟨i, hc⟩ := h.cached b hb
    exact ⟨i, h.mem_inUse.2 ⟨hc.1, hc.2.symm ▸ hb⟩, hc.2⟩

theorem Rest.exists_free_iff (h : Rest R s) (hnd : R.Nodup) :
    (∃ i, (s.buf i).refcnt = 0) ↔ R.length < nbuf := by
  have hcard : (inUse s).card ≤ nbuf := (Finset.card_le_univ _).trans_eq (Fintype.card_fin nbuf)
  rw [← h.card_inUse hnd]
  refine ⟨fun ⟨i, hi⟩ => lt_of_le_of_ne hcard fun he => ?_, fun hlt => ?_⟩
  · have huniv := Finset.eq_univ_of_card (inUse s) (he.trans (Fintype.card_fin nbuf).symm)
    have hmem : i ∈ inUse s := huniv ▸ Finset.mem_univ i
    exact (Finset.mem_filter.1 hmem).2 hi
  · by_contra hnone
    have huniv : inUse s = Finset.univ :=
      Finset.filter_true_of_mem fun i _ hi => hnone ⟨i, hi⟩
    rw [huniv, Finset.card_univ, Fintype.card_fin] at hlt
    exact lt_irrefl _ hlt

theorem Rest.refcnt_of_notMem (h : Rest R s) {i : BufId} {c : ℕ} (hc : c ∉ R)
    (hi : s.Carries i rootdev c ∨ (s.buf i).refcnt = 0) : (s.buf i).refcnt = 0 := by
  refine hi.elim (fun hi => ?_) id
  rw [h.refcnt i, if_neg]
  rintro ⟨-, hm⟩
  exact hc (hi.2 ▸ hm)

/-- A buffer without references is not one of a pinned block. -/
theorem Rest.ne_of_free (h : Rest R s) {i k : BufId} {b : ℕ} (hb : b ∈ R) (hk : s.Carries k rootdev b)
    (hi : (s.buf i).refcnt = 0) : k ≠ i := by
  rintro rfl
  rw [h.refcnt k, if_pos ⟨hk.1, hk.2.symm ▸ hb⟩] at hi
  omega

/-- A block that needs no buffer, or finds one, is read. -/
theorem Rest.ready (h : Rest R s) (hnd : R.Nodup) {c : ℕ} (hc : c ∈ R ∨ R.length < nbuf) :
    Ready s c :=
  ⟨hc.imp (h.cached c) (h.exists_free_iff hnd).2, fun i _ => h.unlocked i⟩

/-- Thread `t` has read block `c`, which is not of `R`, into buffer `i`, and block `b` of `R` into
buffer `j`. -/
structure Both (R : List ℕ) (s : BlockSt) (t : Tid) (c b : ℕ) (i j : BufId) (s' : BlockSt) :
    Prop where
  wf : CacheWF s'
  ne : i ≠ j
  fst : s'.Carries i rootdev c ∧ (s'.buf i).lock = some t ∧ (s'.buf i).refcnt = 1
  snd : s'.Carries j rootdev b ∧ (s'.buf j).lock = some t ∧ (s'.buf j).refcnt = 2
  was : s.Carries j rootdev b
  free : (s.buf i).refcnt = 0
  other : ∀ k, k ≠ i → k ≠ j → s'.buf k = s.buf k
  lh : s'.lh = s.lh

theorem Rest.both (h : Rest R s) {s₁ s₂ : BlockSt} {c b : ℕ} {i j : BufId} (hc : c ∉ R) (hb : b ∈ R)
    (h₁ : Got s t c i s₁) (h₂ : Got s₁ t b j s₂) : Both R s t c b i j s₂ := by
  have hi : (s.buf i).refcnt = 0 := h.refcnt_of_notMem hc h₁.was
  obtain ⟨k, hk⟩ := h.cached b hb
  have hk1 : (s.buf k).refcnt = 1 := by rw [h.refcnt k, if_pos ⟨hk.1, hk.2.symm ▸ hb⟩]
  have hki : k ≠ i := h.ne_of_free hb hk hi
  have hk' : s₁.Carries k rootdev b := (Carries.of_buf_eq (h₁.other k hki)).2 hk
  -- the buffer that has the block already is the one `bread` finds
  obtain rfl : j = k := by
    by_contra hjk
    have hk₂ : s₂.Carries k rootdev b := (Carries.of_buf_eq (h₂.other k (Ne.symm hjk))).2 hk'
    exact hjk (h₂.wf.uniq j k b h₂.carries hk₂)
  refine ⟨h₂.wf, hki.symm, ⟨?_, ?_, ?_⟩, ⟨h₂.carries, h₂.lock, ?_⟩, hk, hi, fun l hli hlj => ?_,
    h₂.lh.trans h₁.lh⟩
  · exact (Carries.of_buf_eq (h₂.other i hki.symm)).2 h₁.carries
  · rw [h₂.other i hki.symm, h₁.lock]
  · rw [h₂.other i hki.symm, h₁.refcnt, hi]
  · rw [h₂.refcnt, h₁.other j hki, hk1]
  · rw [h₂.other l hlj, h₁.other l hli]

/-- After a turn: the buffers have the blocks they had, except for one without references, and the
references they had, except for one dropped if the turn unpins. -/
theorem Rest.of_turn {R' : List ℕ} (h : Rest R s) {c b : ℕ} {i j : BufId} (hc : c ∉ R)
    (hR : ∀ a, a ∈ R' → a ∈ R) (hb : ∀ a, a ∈ R → a ≠ b → a ∈ R') (hwf : CacheWF s')
    (hi : s'.Carries i rootdev c ∧ (s'.buf i).lock = none ∧ (s'.buf i).refcnt = 0)
    (hj : s'.Carries j rootdev b ∧ (s'.buf j).lock = none ∧
      (s'.buf j).refcnt = if b ∈ R' then 1 else 0)
    (hfree : (s.buf i).refcnt = 0) (hother : ∀ k, k ≠ i → k ≠ j → s'.buf k = s.buf k) (hwas : s.Carries j rootdev b) :
    Rest R' s' := by
  refine ⟨hwf, fun k => ?_, fun k => ?_, fun a ha => ?_⟩
  · by_cases hki : k = i
    · rw [hki, hi.2.1]
    · by_cases hkj : k = j
      · rw [hkj, hj.2.1]
      · rw [hother k hki hkj, h.unlocked k]
  · by_cases hki : k = i
    · rw [hki, hi.2.2, if_neg]
      rintro ⟨-, hm⟩
      exact hc (hR c (hi.1.2 ▸ hm))
    · by_cases hkj : k = j
      · rw [hkj, hj.2.2, hj.1.1, hj.1.2]
        simp
      · rw [hother k hki hkj, h.refcnt k]
        have hkb : (s.buf k).dev = rootdev → (s.buf k).blockno ≠ b := fun hd he =>
          hkj (h.wf.uniq k j b ⟨hd, he⟩ hwas)
        by_cases hd : (s.buf k).dev = rootdev
        · have hiff : (s.buf k).blockno ∈ R ↔ (s.buf k).blockno ∈ R' :=
            ⟨fun hm => hb _ hm (hkb hd), hR _⟩
          simp only [hd, true_and, hiff]
        · rw [if_neg fun hm => hd hm.1, if_neg fun hm => hd hm.1]
  · obtain ⟨k, hk⟩ := h.cached a (hR a ha)
    have hki : k ≠ i := h.ne_of_free (hR a ha) hk hfree
    by_cases hkj : k = j
    · subst hkj
      have hab : a = b := hk.2.symm.trans hwas.2
      exact ⟨k, hab ▸ hj.1⟩
    · exact ⟨k, (Carries.of_buf_eq (hother k hki hkj)).2 hk⟩

theorem Rest.ready_snd (h : Rest R s) {s₁ : BlockSt} {c b : ℕ} {i : BufId} (hc : c ∉ R) (hb : b ∈ R)
    (h₁ : Got s t c i s₁) : Ready s₁ b := by
  have hi : (s.buf i).refcnt = 0 := h.refcnt_of_notMem hc h₁.was
  have hcb : c ≠ b := fun he => hc (he ▸ hb)
  obtain ⟨k, hk⟩ := h.cached b hb
  have hki : k ≠ i := h.ne_of_free hb hk hi
  refine ⟨.inl ⟨k, (Carries.of_buf_eq (h₁.other k hki)).2 hk⟩, fun l hl => ?_⟩
  have hli : l ≠ i := by
    rintro rfl
    rcases hl with hl | hl
    · exact hcb (h₁.carries.2.symm.trans hl.2)
    · rw [h₁.refcnt] at hl
      omega
  rw [h₁.other l hli, h.unlocked l]

/-! ## The loops of a commit -/

/-- Nothing is asked of the device here. -/
def AnyDisk (_ : Disk) : Prop := True

section Loops

variable {may : Prop} {Q : Unit → BlockSt → Prop}

theorem writeLogLoop_room (hnd : R.Nodup) (hhome : ∀ b ∈ R, Home ls b) (hm : may ∨ R.length < nbuf)
    (hQ : ∀ s', Rest R s' → s'.lh = R → Q () s') :
    ∀ (l : List ℕ) (tail : ℕ) (s : BlockSt), (∀ b ∈ l, b ∈ R) → tail + l.length ≤ logblocks →
      Rest R s → s.lh = R →
      WP (alone (fun s => AnyDisk s.disk) may) t (writeLogLoop ls tail l) Q s
  | [], tail, s, _, _, h, hlh => WP.alone_ret _ trivial (hQ s h hlh)
  | b :: bs, tail, s, hl, hlen, h, hlh => by
    have hb : b ∈ R := hl b List.mem_cons_self
    have hc : ls + tail + 1 ∉ R := fun hc => (hhome _ hc).2 (inLog_entry (by
      rw [List.length_cons] at hlen
      omega))
    unfold writeLogLoop
    refine WP.alone_bind (bread_wp h.wf trivial (hm.imp_right fun hm => h.ready hnd (.inr hm))
      fun i s₁ h₁ => ?_)
    refine WP.alone_bind (bread_wp h₁.wf trivial (.inr (h.ready_snd hc hb h₁)) fun j s₂ h₂ => ?_)
    have hboth := h.both hc hb h₁ h₂
    simp only [Prog.lift_bind]
    refine WP.alone_ok trivial rfl (setBufData_bwrite_wp hboth.fst.2.1 trivial trivial trivial ?_)
    have hbuf := stored_buf s₂ i (s₂.buf j).data
    have hwf₃ : CacheWF (stored s₂ i (s₂.buf j).data) := hboth.wf.stored
    refine WP.alone_bind (brelse_wp hwf₃ ?_ trivial fun s₄ h₄ => ?_)
    · rw [hbuf, if_neg hboth.ne.symm, hboth.snd.2.1]
    refine WP.alone_bind (brelse_wp h₄.wf ?_ trivial fun s₅ h₅ => ?_)
    · rw [h₄.other i hboth.ne, hbuf, if_pos rfl, hboth.fst.2.1]
    refine writeLogLoop_room hnd hhome hm hQ bs (tail + 1) s₅ (fun a ha => hl a (List.mem_cons_of_mem _ ha))
      (by rw [List.length_cons] at hlen; omega) ?_ (by rw [h₅.lh, h₄.lh]; exact hboth.lh.trans hlh)
    have hi₄ : s₄.buf i = { s₂.buf i with data := (s₂.buf j).data } := by
      rw [h₄.other i hboth.ne, hbuf, if_pos rfl]
    have hj₅ : s₅.buf j = { s₂.buf j with lock := none, refcnt := (s₂.buf j).refcnt - 1 } := by
      rw [h₅.other j hboth.ne.symm, h₄.buf, hbuf, if_neg hboth.ne.symm]
    refine h.of_turn (i := i) (j := j) hc (fun _ => id) (fun _ ha _ => ha) h₅.wf ?_ ?_ hboth.free
      (fun k hki hkj => ?_) hboth.was
    · rw [Carries, h₅.buf, hi₄]
      exact ⟨hboth.fst.1, rfl, by simp only [hboth.fst.2.2]⟩
    · rw [Carries, hj₅, if_pos hb]
      exact ⟨hboth.snd.1, rfl, by simp only [hboth.snd.2.2]⟩
    · rw [h₅.other k hki, h₄.other k hkj, hbuf, if_neg hki, hboth.other k hki hkj]

theorem installLoop_room (hhome : ∀ b ∈ R, Home ls b)
    (hQ : ∀ s', Rest [] s' → s'.lh = R → Q () s') :
    ∀ (l : List ℕ) (tail : ℕ) (s : BlockSt), l.Nodup → (∀ b ∈ l, b ∈ R) →
      tail + l.length ≤ logblocks → (may ∨ l.length < nbuf) → Rest l s → s.lh = R →
      WP (alone (fun s => AnyDisk s.disk) may) t (installLoop ls false tail l) Q s
  | [], tail, s, _, _, _, _, h, hlh => WP.alone_ret _ trivial (hQ s h hlh)
  | b :: bs, tail, s, hnd, hl, hlen, hm, h, hlh => by
    have hb : b ∈ b :: bs := List.mem_cons_self
    obtain ⟨hbs, hnd'⟩ := List.nodup_cons.1 hnd
    have hc : ls + tail + 1 ∉ b :: bs := fun hc => (hhome _ (hl _ hc)).2 (inLog_entry (by
      rw [List.length_cons] at hlen
      omega))
    unfold installLoop
    refine WP.alone_bind (bread_wp h.wf trivial (hm.imp_right fun hm => h.ready hnd (.inr hm))
      fun i s₁ h₁ => ?_)
    refine WP.alone_bind (bread_wp h₁.wf trivial (.inr (h.ready_snd hc hb h₁)) fun j s₂ h₂ => ?_)
    have hboth := h.both hc hb h₁ h₂
    simp only [Prog.lift_bind]
    refine WP.alone_ok trivial rfl (setBufData_bwrite_wp hboth.snd.2.1 trivial trivial trivial ?_)
    rw [if_pos trivial]
    generalize hs₃ : stored s₂ j (s₂.buf i).data = s₃
    have hbuf : ∀ k, s₃.buf k = if k = j then { s₂.buf j with data := (s₂.buf i).data } else s₂.buf k :=
      fun k => hs₃ ▸ stored_buf s₂ j (s₂.buf i).data k
    have hwf₃ : CacheWF s₃ := hs₃ ▸ hboth.wf.stored
    have hlh₃ : s₃.lh = R := hs₃ ▸ hboth.lh.trans hlh
    refine WP.alone_ok trivial rfl ?_
    generalize hs₄ : ({ s₃.setBuf j { s₃.buf j with refcnt := (s₃.buf j).refcnt - 1 } with
      aux := { s₃.aux with pinned := Function.update s₃.aux.pinned j false } } : BlockSt) = s₄
    have hj₄ : s₄.buf j = { s₃.buf j with refcnt := (s₃.buf j).refcnt - 1 } := by simp [← hs₄]
    have hk₄ : ∀ k, k ≠ j → s₄.buf k = s₃.buf k := fun k hk => by simp [← hs₄, setBuf, hk]
    have hlh₄ : s₄.lh = R := hs₄ ▸ hlh₃
    have hwf₄ : CacheWF s₄ := hwf₃.of_setBuf (i := j) (by rw [hj₄]) (by rw [hj₄]) hk₄
      (hs₄ ▸ hwf₃.mem_lru)
    refine WP.alone_bind (brelse_wp hwf₄ ?_ trivial fun s₅ h₅ => ?_)
    · rw [hk₄ i hboth.ne, hbuf, if_neg hboth.ne, hboth.fst.2.1]
    refine WP.alone_bind (brelse_wp h₅.wf ?_ trivial fun s₆ h₆ => ?_)
    · rw [h₅.other j hboth.ne.symm, hj₄, hbuf, if_pos rfl, hboth.snd.2.1]
    have hi₆ : s₆.buf i = { s₂.buf i with lock := none, refcnt := (s₂.buf i).refcnt - 1 } := by
      rw [h₆.other i hboth.ne, h₅.buf, hk₄ i hboth.ne, hbuf, if_neg hboth.ne]
    have hj₅ : s₅.buf j = { s₂.buf j with
        data := (s₂.buf i).data, refcnt := (s₂.buf j).refcnt - 1 } := by
      rw [h₅.other j hboth.ne.symm, hj₄, hbuf, if_pos rfl]
    refine installLoop_room hhome hQ bs (tail + 1) s₆ hnd' (fun a ha => hl a (List.mem_cons_of_mem _ ha))
      (by rw [List.length_cons] at hlen; omega)
      (hm.imp_right fun hm => by rw [List.length_cons] at hm; omega) ?_
      (by rw [h₆.lh, h₅.lh]; exact hlh₄)
    refine h.of_turn (i := i) (j := j) (b := b) hc (fun _ => List.mem_cons_of_mem b)
      (fun a ha hab => (List.mem_cons.1 ha).resolve_left hab) h₆.wf ?_ ?_ hboth.free
      (fun k hki hkj => ?_) hboth.was
    · rw [Carries, hi₆]
      exact ⟨hboth.fst.1, rfl, by simp only [hboth.fst.2.2]⟩
    · rw [Carries, h₆.buf, hj₅, if_neg hbs]
      exact ⟨hboth.snd.1, rfl, by simp only [hboth.snd.2.2]⟩
    · rw [h₆.other k hkj, h₅.other k hki, hk₄ k hkj, hbuf, if_neg hkj, hboth.other k hki hkj]

theorem writeHead_room (hnd : R.Nodup) (hhome : ∀ b ∈ R, Home ls b) (hm : may ∨ R.length < nbuf)
    (h : Rest R s) (hQ : ∀ s', Rest R s' → s'.lh = s.lh → Q () s') :
    WP (alone (fun s => AnyDisk s.disk) may) t (writeHead ls) Q s := by
  have hc : ls ∉ R := fun hc => (hhome _ hc).2 inLog_header
  unfold writeHead
  refine WP.alone_bind (bread_wp h.wf trivial (hm.imp_right fun hm => h.ready hnd (.inr hm))
    fun i s₁ h₁ => ?_)
  have hi : (s.buf i).refcnt = 0 := h.refcnt_of_notMem hc h₁.was
  simp only [Prog.lift_bind]
  refine WP.alone_ok trivial rfl (WP.alone_ok trivial rfl
    (setBufData_bwrite_wp h₁.lock trivial trivial trivial ?_))
  generalize hs₂ : stored s₁ i (encodeHeader s₁.lh (s₁.buf i).data) = s₂
  have hbuf : ∀ k, s₂.buf k = if k = i then
      { s₁.buf i with data := encodeHeader s₁.lh (s₁.buf i).data } else s₁.buf k :=
    fun k => hs₂ ▸ stored_buf s₁ i _ k
  have hwf₂ : CacheWF s₂ := hs₂ ▸ h₁.wf.stored
  have hlh₂ : s₂.lh = s.lh := hs₂ ▸ h₁.lh
  refine brelse_wp hwf₂ ?_ trivial fun s₃ h₃ => hQ s₃ ⟨h₃.wf, fun k => ?_, fun k => ?_, fun b hb => ?_⟩
    (h₃.lh.trans hlh₂)
  · rw [hbuf, if_pos rfl, h₁.lock]
  · by_cases hki : k = i
    · rw [hki, h₃.buf]
    · rw [h₃.other k hki, hbuf, if_neg hki, h₁.other k hki, h.unlocked k]
  · by_cases hki : k = i
    · rw [hki, h₃.buf, hbuf, if_pos rfl]
      simp only [h₁.refcnt, hi, h₁.carries.2]
      rw [if_neg fun hm => hc hm.2]
    · rw [h₃.other k hki, hbuf, if_neg hki, h₁.other k hki, h.refcnt k]
  · obtain ⟨k, hk⟩ := h.cached b hb
    have hki : k ≠ i := h.ne_of_free hb hk hi
    refine ⟨k, (Carries.of_buf_eq ?_).2 hk⟩
    rw [h₃.other k hki, hbuf, if_neg hki, h₁.other k hki]

/-- **`commit`, with its buffers**: it gives back every pinned buffer, and panics only in a full
log. -/
theorem commit_room (hnd : s.lh.Nodup) (hhome : ∀ b ∈ s.lh, Home ls b)
    (hlen : s.lh.length ≤ logblocks) (hm : may ∨ s.lh.length < nbuf) (h : Rest s.lh s)
    (hQ : ∀ s', Rest [] s' → s'.lh = [] → Q () s') :
    WP (alone (fun s => AnyDisk s.disk) may) t (commit ls) Q s := by
  generalize hR : s.lh = R at hnd hhome hlen hm h
  unfold commit
  simp only [Prog.lift_bind]
  refine WP.alone_ok trivial rfl ?_
  by_cases hn : s.lh.length > 0
  · rw [if_pos hn]
    unfold writeLog installTrans
    simp only [Prog.lift_bind, Prog.act_bind]
    refine WP.alone_ok trivial rfl (WP.alone_bind ?_)
    rw [hR]
    refine writeLogLoop_room hnd hhome hm (fun s₁ h₁ hl₁ => ?_) R 0 s (fun _ => id) (by omega) h hR
    refine WP.alone_bind (writeHead_room hnd hhome hm h₁ fun s₂ h₂ hl₂ => ?_)
    refine WP.alone_ok trivial rfl (WP.alone_bind ?_)
    rw [hl₂, hl₁]
    refine installLoop_room hhome (fun s₃ h₃ _ => ?_) R 0 s₂ hnd (fun _ => id) (by omega) hm h₂
      (hl₂.trans hl₁)
    refine WP.alone_ok trivial rfl ?_
    have h₄ : Rest [] { s₃ with lh := [] } :=
      ⟨⟨h₃.wf.uniq, h₃.wf.mem_lru⟩, h₃.unlocked, h₃.refcnt, fun b hb => by cases hb⟩
    exact writeHead_room List.nodup_nil (fun b hb => by cases hb) (.inr (by decide)) h₄
      fun s₅ h₅ hl₅ => hQ s₅ h₅ hl₅
  · rw [if_neg hn]
    have hnil : s.lh = [] := List.length_eq_zero_iff.1 (by omega)
    obtain rfl : R = [] := hR.symm.trans hnil
    exact WP.alone_ret _ trivial (hQ s h hnil)

end Loops

/-! ## Tidy operations -/

/-- The calls of an operation that has buffers only between `begin_op` and `end_op`. -/
def OpPool.Tidy (P : OpPool) (t : Tid) : Call → Prop
  | .beginOp => True
  | .bread _ => P.op t ≠ none
  | .logWrite _ _ => True
  | .brelse _ => P.op t ≠ none
  | .endOp => ∀ i, t ∉ P.shared.aux.users i

instance (P : OpPool) (t : Tid) : (c : Call) → Decidable (P.Tidy t c)
  | .beginOp => inferInstanceAs (Decidable True)
  | .bread _ => inferInstanceAs (Decidable (P.op t ≠ none))
  | .logWrite _ _ => inferInstanceAs (Decidable True)
  | .brelse _ => inferInstanceAs (Decidable (P.op t ≠ none))
  | .endOp => inferInstanceAs (Decidable (∀ i, t ∉ P.shared.aux.users i))

/-- What a thread inside a call has to do with buffers. -/
def Holding (o : Ops) (t : Tid) (s : BlockSt) : Call → Prop
  | .beginOp => True
  | .bread _ => o t ≠ none
  | .logWrite _ _ => True
  | .brelse _ => o t ≠ none
  | .endOp => o t ≠ none → ∀ i, t ∉ s.aux.users i

/-- `end_op` after `commit`. -/
abbrev afterCommit : Unit → Prog BlockSt Reply := fun _ => .act endOpLeave fun _ => .ret none

/-- The invariant of tidy operations: buffers are used by operations in progress and by the commit,
which is going to give them all back. -/
structure TidyInv (ls : ℕ) (P : OpPool) : Prop where
  op : OpInv ls P
  users : ∀ u i, u ∈ P.shared.aux.users i → P.op u ≠ none ∨ P.shared.aux.committer = some u
  calls : ∀ u c p, P.pool.thread u = .run c p → Holding P.op u P.shared c
  commit : ∀ u, P.shared.aux.committer = some u → ∃ q : Prog BlockSt Unit,
    P.pool.thread u = .run .endOp (q >>= afterCommit) ∧ q.Obeys Ends CacheMsg ∧
    WP (alone (fun s => AnyDisk s.disk) True) u q (fun _ s => Rest [] s) P.shared

/-- With no buffer in use, the pinned ones are those of the logged blocks. -/
theorem Inv.rest (hI : Inv ls s) (hu : ∀ i, s.aux.users i = []) (hc : s.committing = false) :
    Rest s.lh s := by
  have hpins : ∀ b ∈ s.lh, ∃ i, s.Carries i rootdev b ∧ s.aux.pinned i = true := fun b hb =>
    (hI.logged b hb).2.resolve_right fun h => by simp [hc] at h
  refine ⟨hI.wf, fun i => ?_, fun i => ?_, fun b hb => ?_⟩
  · cases hl : (s.buf i).lock with
    | none => rfl
    | some u => exact absurd (hu i) (hI.users_ne_nil hl)
  · have hiff : s.aux.pinned i = true ↔ (s.buf i).dev = rootdev ∧ (s.buf i).blockno ∈ s.lh := by
      refine ⟨fun hp => ⟨(hI.used i (.inl (hI.pin i hp).1)).1, (hI.pin i hp).2⟩, fun ⟨hd, hm⟩ => ?_⟩
      obtain ⟨j, hj, hp⟩ := hpins _ hm
      rwa [hI.wf.uniq i j _ ⟨hd, rfl⟩ hj]
    rw [hI.refs i, hu i]
    simp only [List.length_nil, zero_add, hiff]
  · obtain ⟨i, hi, -⟩ := hpins b hb
    exact ⟨i, hi⟩

/-- When the last operation ends, no buffer is in use. -/
theorem TidyInv.users_eq_nil {P : OpPool} (h : TidyInv ls P) {p : Prog BlockSt Reply}
    (ht : P.pool.thread t = .run .endOp p) (ho : P.op t ≠ none) (hc : P.shared.committing = false)
    (hout : P.shared.outstanding = 1) (i : BufId) : P.shared.aux.users i = [] := by
  obtain ⟨T, hT⟩ := h.op.reserved
  have hcard : T.card = 1 := by
    have := hT.count
    omega
  obtain ⟨v, rfl⟩ := Finset.card_eq_one.1 hcard
  have htv : t = v := Finset.mem_singleton.1 ((hT.mem t).2 ho)
  refine List.eq_nil_iff_forall_not_mem.2 fun u hu => ?_
  have hou : P.op u ≠ none := by
    refine (h.users u i hu).resolve_right fun hcu => ?_
    rw [h.op.inv.committing_of_committer hcu] at hc
    cases hc
  have huv : u = v := Finset.mem_singleton.1 ((hT.mem u).2 hou)
  rw [huv, ← htv] at hu
  exact h.calls t _ _ ht ho i hu

/-- **While a thread commits, no other thread runs a section.** -/
theorem TidyInv.alone {P : OpPool} (h : TidyInv ls P) {u : Tid} {c : Call} {δ : Type}
    {f : Action BlockSt δ} {k : δ → Prog BlockSt Reply} {b : δ}
    (hc : P.shared.aux.committer = some t) (hu : P.pool.thread u = .run c (.act f k))
    (hf : f u P.shared = .ok b s') : u = t := by
  have hbusy := h.op.inv.committing_of_committer hc
  obtain ⟨T, hT⟩ := h.op.reserved
  have hnone : P.op u = none := by
    by_contra hn
    have := (hT.mem u).2 hn
    rw [hT.eq_empty h.op.inv hc] at this
    exact Finset.notMem_empty u this
  have hcalls := h.calls u c _ hu
  have ha := (h.op.stage u c _ hu).acts hf
  generalize k b = p at ha
  cases ha with
  | begin ho hcm hr => simp [hcm] at hbusy
  | log ho hf => exact absurd hnone ho
  | last ho hcm hl => simp [hcm] at hbusy
  | leaveOp ho hcm hl => simp [hcm] at hbusy
  | commit hcu hE hq => exact Option.some.inj (hcu.symm.trans hc)
  | done hcu => exact Option.some.inj (hcu.symm.trans hc)
  | bread hC hp => exact absurd hnone hcalls
  | brelse hC hp => exact absurd hnone hcalls

theorem bind_afterCommit_ne_ret (q : Prog BlockSt Unit) (r : Reply) :
    (q >>= afterCommit) ≠ .ret r := by
  cases q with
  | ret a => exact fun h => by cases h
  | act f k => exact fun h => by cases h

section Step

variable {P : OpPool} {c : Call} {δ : Type} {f : Action BlockSt δ} {k : δ → Prog BlockSt Reply} {b : δ}

/-- A section of the commit. -/
theorem TidyInv.commit_act (h : TidyInv ls P) (hc : P.shared.aux.committer = some t)
    (ht : P.pool.thread t = .run c (.act f k)) (hf : f t P.shared = .ok b s') (hI' : Inv ls s') :
    c = .endOp ∧ ((∃ q : Prog BlockSt Unit, s'.aux.committer = some t ∧ k b = (q >>= afterCommit) ∧
      q.Obeys Ends CacheMsg ∧
      WP (Conc.alone (fun s => AnyDisk s.disk) True) t q (fun _ s => Rest [] s) s') ∨
      s'.aux.committer = none ∧ ∀ i, s'.aux.users i = []) := by
  obtain ⟨q, hq, hobeys, hwp⟩ := h.commit t hc
  rw [hq] at ht
  obtain ⟨rfl, hp⟩ := Thread.run.inj ht
  refine ⟨rfl, ?_⟩
  cases q with
  | ret a =>
    cases hp
    obtain ⟨-, rfl⟩ := Outcome.ok.inj hf
    have hrest : Rest [] P.shared := (hwp P.shared rfl).2
    refine .inr ⟨rfl, fun i => ?_⟩
    have hz : (P.shared.buf i).refcnt = 0 := by simpa using hrest.refcnt i
    exact (h.op.inv.lock_ne_of_refcnt hz).1
  | act g l =>
    cases hp
    obtain ⟨hE, hobeys'⟩ := obeys_act hobeys hf
    exact .inl ⟨l b, hE.committer.trans hc, rfl, hobeys', (hwp.of_ok (fun _ => rfl) hf).2⟩

/-- A section while nobody commits. -/
theorem TidyInv.plain_act (h : TidyInv ls P) (hc : P.shared.aux.committer = none)
    (ht : P.pool.thread t = .run c (.act f k)) (hf : f t P.shared = .ok b s') :
    s'.aux.committer = none ∧ ((P.op.after t P.shared c) t ≠ none ∨ ∀ i, t ∉ s'.aux.users i) ∨
    s'.aux.committer = some t ∧ c = .endOp ∧ k b = (Xv6.commit ls >>= afterCommit) ∧
      WP (Conc.alone (fun s => AnyDisk s.disk) True) t (Xv6.commit ls) (fun _ s => Rest [] s) s' := by
  have ha := (h.op.stage t c _ ht).acts hf
  have hcalls := h.calls t c _ ht
  generalize k b = p at ha
  cases ha with
  | begin ho hcm hr => exact .inl ⟨hc, .inl (by simp [Ops.after])⟩
  | @log i x _ ho hf =>
    obtain ⟨B, hB⟩ := Option.ne_none_iff_exists'.1 ho
    refine .inl ⟨?_, .inl (by simp [Ops.after, hB])⟩
    obtain ⟨-, -, -, -, ⟨-, rfl⟩ | ⟨-, rfl⟩⟩ := logWrite_ok hf <;> exact hc
  | last ho hcm hl =>
    have hI := h.op.inv
    have hrest := hI.rest (h.users_eq_nil ht ho hcm hl) hcm
    refine .inr ⟨rfl, rfl, rfl, ?_⟩
    exact commit_room (s := { P.shared with
        outstanding := 0, committing := true, aux := { P.shared.aux with committer := some t } })
      hI.nodup (fun b hb => (hI.logged b hb).1) hI.room (.inl trivial)
      ⟨⟨hrest.wf.uniq, hrest.wf.mem_lru⟩, hrest.unlocked, hrest.refcnt, hrest.cached⟩ fun s' h' _ => h'
  | leaveOp ho hcm hl => exact .inl ⟨hc, .inr (hcalls ho)⟩
  | commit hcu hE hq => simp [hc] at hcu
  | done hcu => simp [hc] at hcu
  | bread hC hp => exact .inl ⟨hC.committer.trans hc, .inl hcalls⟩
  | brelse hC hp => exact .inl ⟨hC.committer.trans hc, .inl hcalls⟩

/-- What thread `u` holds is its own affair. -/
theorem Holding.congr {o o' : Ops} {u : Tid} (h : Holding o u s c) (ho : o' u = o u)
    (hu : ∀ i, u ∈ s'.aux.users i → u ∈ s.aux.users i) : Holding o' u s' c := by
  cases c with
  | beginOp => trivial
  | bread b => exact fun hn => h (ho.symm.trans hn)
  | logWrite i x => trivial
  | brelse i => exact fun hn => h (ho.symm.trans hn)
  | endOp => exact fun hn i hi => h (fun hn' => hn (ho.trans hn')) i (hu i hi)

/-- The thread that runs a section of a call goes on holding what the call needs. -/
theorem Holding.after {o : Ops} (h : Holding o t s c) : Holding (o.after t s c) t s' c := by
  cases c with
  | beginOp => trivial
  | bread b => exact h
  | logWrite i x => trivial
  | brelse i => exact h
  | endOp => exact fun hn => absurd (by simp [Ops.after]) hn

theorem TidyInv.act (h : TidyInv ls P) (ht : P.pool.thread t = .run c (.act f k))
    (hf : f t P.shared = .ok b s') (hview : ∀ u, u ≠ t → View ls u P.shared s')
    (hop : OpInv ls ⟨⟨s', Function.update P.pool.thread t (.run c (k b))⟩, P.op.after t P.shared c⟩) :
    TidyInv ls ⟨⟨s', Function.update P.pool.thread t (.run c (k b))⟩, P.op.after t P.shared c⟩ := by
  -- the users of a buffer other than `t` stay
  have husers : ∀ u, u ≠ t → ∀ i, u ∈ s'.aux.users i → u ∈ P.shared.aux.users i := by
    intro u hut i hu
    rw [← List.count_pos_iff, (hview u hut).users i, List.count_pos_iff] at hu
    exact hu
  have hcalls : ∀ u c' p, Function.update P.pool.thread t (.run c (k b)) u = .run c' p →
      Holding (P.op.after t P.shared c) u s' c' := by
    intro u c' p hu
    by_cases hut : u = t
    · subst hut
      rw [Function.update_self] at hu
      obtain ⟨rfl, -⟩ := Thread.run.inj hu
      exact (h.calls u c _ ht).after
    · rw [Function.update_of_ne hut] at hu
      exact (h.calls u c' p hu).congr (Ops.after_of_ne _ _ hut) (husers u hut)
  cases hcom : P.shared.aux.committer with
  | none =>
    have hother : ∀ u i, u ≠ t → u ∈ s'.aux.users i → P.op.after t P.shared c u ≠ none := by
      intro u i hut hu
      rw [Ops.after_of_ne _ _ hut]
      exact (h.users u i (husers u hut i hu)).resolve_right (by simp [hcom])
    rcases h.plain_act hcom ht hf with ⟨hc', hmine⟩ | ⟨hc', rfl, hk, hwp⟩
    · refine ⟨hop, fun u i hu => .inl ?_, hcalls, fun u hu =>
        absurd (hc'.symm.trans hu) (by simp)⟩
      by_cases hut : u = t
      · subst hut
        exact hmine.resolve_right fun hn => hn i hu
      · exact hother u i hut hu
    · refine ⟨hop, fun u i hu => ?_, hcalls, fun u hu => ?_⟩
      · by_cases hut : u = t
        · exact .inr (hut ▸ hc')
        · exact .inl (hother u i hut hu)
      · obtain rfl : t = u := Option.some.inj (hc'.symm.trans hu)
        exact ⟨_, by simp only [Function.update_self, hk], commit_obeys, hwp⟩
  | some v =>
    obtain rfl : t = v := h.alone hcom ht hf
    -- nobody else has a buffer, since the operations in progress are none
    have hother : ∀ u i, u ≠ t → u ∉ s'.aux.users i := by
      intro u i hut hu
      obtain ⟨T, hT⟩ := h.op.reserved
      rcases h.users u i (husers u hut i hu) with ho | hcu
      · have := (hT.mem u).2 ho
        rw [hT.eq_empty h.op.inv hcom] at this
        exact Finset.notMem_empty u this
      · exact hut (Option.some.inj (hcu.symm.trans hcom))
    obtain ⟨rfl, ⟨q, hc', hk, hobeys, hwp⟩ | ⟨hc', hnil⟩⟩ := h.commit_act hcom ht hf hop.inv
    · refine ⟨hop, fun u i hu => .inr ?_, hcalls, fun u hu => ?_⟩
      · by_cases hut : u = t
        · exact hut ▸ hc'
        · exact absurd hu (hother u i hut)
      · obtain rfl : t = u := Option.some.inj (hc'.symm.trans hu)
        exact ⟨q, by simp only [Function.update_self, hk], hobeys, hwp⟩
    · refine ⟨hop, fun u i hu => ?_, hcalls, fun u hu =>
        absurd (hc'.symm.trans hu) (by simp)⟩
      have hu : u ∈ s'.aux.users i := hu
      rw [hnil i] at hu
      cases hu

theorem TidyInv.step {P' : OpPool} (hsafe : Pool.Safe (duty ls) Returns (Inv ls) P.pool)
    (h : TidyInv ls P) (hop : OpInv ls P') (hs : OpPool.Step ls OpPool.Tidy P P') :
    TidyInv ls P' := by
  cases hs with
  | @start t c ht hm hg =>
    refine ⟨hop, h.users, fun u c' p hu => ?_, fun u hu => ?_⟩
    · by_cases hut : u = t
      · subst hut
        simp only [Function.update_self, Thread.run.injEq] at hu
        obtain ⟨rfl, -⟩ := hu
        cases c with
        | beginOp => trivial
        | bread b => exact hg
        | logWrite i x => trivial
        | brelse i => exact hg
        | endOp => exact fun _ => hg
      · simp only [Function.update_of_ne hut] at hu
        exact h.calls u c' p hu
    · obtain ⟨q, hq, hrest⟩ := h.commit u hu
      have hut : u ≠ t := by
        rintro rfl
        rw [ht] at hq
        cases hq
      exact ⟨q, by simp only [Function.update_of_ne hut]; exact hq, hrest⟩
  | @act t c _ f k b s' ht hf hw =>
    have hguar := ((hsafe.wp t c _ ht).of_ok (duty_rules.rely_refl t) hf).1
    exact h.act ht hf (fun u hu => (hguar h.op.inv).2.1 u hu) hop
  | @finish t c r ht =>
    refine ⟨hop, h.users, fun u c' p hu => ?_, fun u hu => ?_⟩
    · by_cases hut : u = t
      · subst hut
        simp at hu
      · simp only [Function.update_of_ne hut] at hu
        exact h.calls u c' p hu
    · obtain ⟨q, hq, hrest⟩ := h.commit u hu
      have hut : u ≠ t := by
        rintro rfl
        rw [ht] at hq
        exact bind_afterCommit_ne_ret q r (Thread.run.inj hq).2.symm
      exact ⟨q, by simp only [Function.update_of_ne hut]; exact hq, hrest⟩

end Step

theorem OpPool.Reaches.tidyInv (hls : ls + logblocks < 2 ^ 31) {s₀ : BlockSt} (h₀ : Fresh s₀)
    (hout : s₀.outstanding = 0) {P : OpPool} (hP : OpPool.Reaches ls OpPool.Tidy (.init s₀) P) :
    TidyInv ls P := by
  induction hP with
  | refl =>
    have haux : (OpPool.init s₀).shared.aux = ⟨fun _ => [], fun _ => false, none, blockAt s₀.disk⟩ :=
      h₀.aux
    refine ⟨OpPool.Reaches.opInv (G := OpPool.Tidy) hls h₀ hout .refl, fun u i hu => ?_,
      fun u c p hu => by simp [OpPool.init, Pool.init] at hu, fun u hu => ?_⟩
    · simp [haux] at hu
    · simp [haux] at hu
  | tail hr hs ih =>
    exact ih.step (Pool.reachable_safe duty_rules (fun _ c _ hI => body_wp hls c hI) h₀.inv
      (OpPool.Reaches.pool hr))
      (OpPool.Reaches.opInv hls h₀ hout (hr.tail hs)) hs

/-! ## The last `end_op` -/

/-- `bget` with every buffer in use by another block. -/
theorem bgetRef_panic {b : ℕ} (hn : ∀ i, ¬ s.Carries i rootdev b) (hr : ∀ i, (s.buf i).refcnt ≠ 0) :
    bgetRef rootdev b t s = .panic "bget: no buffers" := by
  have hfind : (s.lru.find? fun i => s.Carries i rootdev b) = none :=
    List.find?_eq_none.2 fun i _ => by simp [hn i]
  have hfree : (s.lru.reverse.find? fun i => (s.buf i).refcnt == 0) = none :=
    List.find?_eq_none.2 fun i _ => by simp [hr i]
  simp only [bgetRef, hfind, hfree]

/-- `commit` with a buffer pinned for each logged block and no other. -/
theorem commit_panics (hnd : s.lh.Nodup) (hhome : ∀ b ∈ s.lh, Home ls b) (h : Rest s.lh s)
    (hfull : nbuf ≤ s.lh.length) : (commit ls).exec t s = .panic "bget: no buffers" := by
  have hfree : ∀ i, (s.buf i).refcnt ≠ 0 := fun i hi => by
    have := (h.exists_free_iff hnd).1 ⟨i, hi⟩
    omega
  -- every buffer has a logged block, so none has a block of the log
  have hnone : ∀ i, ¬ s.Carries i rootdev (ls + 0 + 1) := fun i hi => by
    have hin := h.mem_inUse.1 (Finset.mem_filter.2 ⟨Finset.mem_univ i, hfree i⟩)
    rw [hi.2] at hin
    exact (hhome _ hin.2).2 (inLog_entry (k := 0) (by decide))
  obtain ⟨b, bs, hl⟩ := List.exists_cons_of_length_pos (l := s.lh) (by simp only [nbuf] at hfull; omega)
  have hloop : (writeLogLoop ls 0 (b :: bs)).exec t s = .panic "bget: no buffers" := by
    unfold writeLogLoop bread bget
    simp only [Prog.lift_bind, Prog.act_bind, Prog.exec, bgetRef_panic hnone hfree, Outcome.andThen]
  have hlog : (writeLog ls).exec t s = .panic "bget: no buffers" := by
    unfold writeLog
    simp only [Prog.lift_bind, Prog.exec, getLh, Outcome.andThen, hl, hloop]
  unfold commit
  simp only [Prog.lift_bind, Prog.exec, getLh, Outcome.andThen]
  rw [if_pos (by simp only [nbuf] at hfull; omega), Prog.exec_bind, hlog]
  rfl

theorem endOpEnter_last (hc : s.committing = false) (hout : s.outstanding = 1) :
    endOpEnter t s = .ok true { s with
      outstanding := 0, committing := true, aux := { s.aux with committer := some t } } := by
  simp [endOpEnter, hc, hout]

/-- **A commit has the buffers it needs, unless the log is full.** While a thread commits, no other
thread runs a section. When the last operation ends, `end_op` runs to its end, and drops the pin of
every buffer that `log_write` pinned and no other reference, just when fewer than `NBUF` blocks are
logged; otherwise it panics. -/
theorem commit_buffers_iff (hls : ls + logblocks < 2 ^ 31) {s₀ : BlockSt} (h₀ : Fresh s₀)
    (hout : s₀.outstanding = 0) {P : OpPool} (hP : OpPool.Reaches ls OpPool.Tidy (.init s₀) P) :
    (∀ (t u : Tid) (c : Call) (δ : Type) (f : Action BlockSt δ) (k : δ → Prog BlockSt Reply) (b : δ)
      (s' : BlockSt), P.shared.aux.committer = some t → P.pool.thread u = .run c (.act f k) →
      f u P.shared = .ok b s' → u = t) ∧
    ∀ t, P.pool.thread t = .run .endOp (body ls .endOp) → P.shared.outstanding = 1 →
      ((∃ r s', (body ls .endOp).exec t P.shared = .ok r s' ∧ ∀ i, s'.aux.pinned i = false ∧
        (P.shared.buf i).refcnt = (s'.buf i).refcnt + if P.shared.aux.pinned i then 1 else 0) ↔
        P.shared.lh.length < nbuf) ∧
      (nbuf ≤ P.shared.lh.length →
        (body ls .endOp).exec t P.shared = .panic "bget: no buffers") := by
  have h := hP.tidyInv hls h₀ hout
  refine ⟨fun t u c δ f k b s' hc hu hf => h.alone hc hu hf, fun t ht hlast => ?_⟩
  have hI := h.op.inv
  have hc : P.shared.committing = false := by
    by_contra hn
    have := (hI.busy (by simpa using hn)).1
    omega
  have ho : P.op t ≠ none := by
    obtain ⟨-, ho⟩ | ⟨r, hr⟩ | ⟨hcom, -⟩ := h.op.stage t _ _ ht
    · exact ho
    · rw [body_endOp] at hr
      cases hr
    · rw [(hI.idle hc).1] at hcom
      cases hcom
  have husers := h.users_eq_nil ht ho hc hlast
  have hrest := hI.rest husers hc
  have hhome : ∀ b ∈ P.shared.lh, Home ls b := fun b hb => (hI.logged b hb).1
  -- the state in which `commit` starts
  generalize hs₁ : ({ P.shared with
    outstanding := 0, committing := true, aux := { P.shared.aux with committer := some t } } :
      BlockSt) = s₁
  have henter : endOpEnter t P.shared = .ok true s₁ := hs₁ ▸ endOpEnter_last hc hlast
  have hlh₁ : s₁.lh = P.shared.lh := hs₁ ▸ rfl
  have hrest₁ : Rest s₁.lh s₁ := by
    subst hs₁
    exact ⟨⟨hrest.wf.uniq, hrest.wf.mem_lru⟩, hrest.unlocked, hrest.refcnt, hrest.cached⟩
  have hexec : (body ls .endOp).exec t P.shared =
      ((commit ls).exec t s₁).andThen fun a s' => (afterCommit a).exec t s' := by
    rw [body_endOp, Prog.exec, henter]
    exact Prog.exec_bind t (commit ls) afterCommit s₁
  have hpanics : nbuf ≤ P.shared.lh.length →
      (body ls .endOp).exec t P.shared = .panic "bget: no buffers" := fun hfull => by
    rw [hexec, commit_panics (by rw [hlh₁]; exact hI.nodup) (by rw [hlh₁]; exact hhome) hrest₁
      (by rw [hlh₁]; exact hfull)]
    rfl
  refine ⟨⟨?_, fun hlt => ?_⟩, hpanics⟩
  · rintro ⟨r, s', hok, -⟩
    by_contra hfull
    rw [hpanics (by omega)] at hok
    cases hok
  · have hwp : WP (Conc.alone (fun s => AnyDisk s.disk) False) t (commit ls)
        (fun _ s' => Rest [] s') s₁ :=
      commit_room (by rw [hlh₁]; exact hI.nodup) (by rw [hlh₁]; exact hhome)
        (by rw [hlh₁]; exact hI.room) (.inr (by rw [hlh₁]; exact hlt)) hrest₁ fun s' h' _ => h'
    obtain ⟨a, s₂, hruns⟩ := WP.alone_total hwp
    have hrest₂ : Rest [] s₂ := WP.alone_post (Q := fun _ s' => Rest [] s') hruns hwp
    have hok : (body ls .endOp).exec t P.shared = .ok none { s₂ with
        committing := false, aux := { s₂.aux with committer := none } } := by
      rw [hexec, Prog.exec_of_runs hruns]
      rfl
    refine ⟨none, _, hok, fun i => ?_⟩
    -- the invariant holds at the end of the call, as anywhere
    have hthread : Function.update P.pool.thread t (.run .endOp (body ls .endOp)) = P.pool.thread :=
      Function.update_eq_self_iff.2 ht.symm
    have hreach := Pool.reaches_runs (c := Call.endOp) (body ls) P.pool.thread (Prog.runs_of_exec hok)
    rw [hthread] at hreach
    have hI' := (Pool.reachable_safe duty_rules (fun _ c _ hI => body_wp hls c hI) h₀.inv
      (hP.pool.trans hreach)).inv
    have hz : (s₂.buf i).refcnt = 0 := by simpa using hrest₂.refcnt i
    refine ⟨(hI'.lock_ne_of_refcnt hz).2.1, ?_⟩
    have hrefs := hI.refs i
    rw [husers i, List.length_nil] at hrefs
    exact hrefs.trans (by rw [show (s₂.buf i).refcnt = 0 from hz])

theorem commit_buffers_iff_oneBlock : ∃ (P : OpPool) (r : Reply) (s' : BlockSt),
    OpPool.Reaches 2 OpPool.Tidy (.init (binit fun _ => .zero _)) P ∧ P.shared.lh.length = 1 ∧
    (body 2 .endOp).exec 0 P.shared = .ok r s' ∧ ∀ i, s'.aux.pinned i = false := by
  -- an operation logs block 40 and ends
  have hcalls : (opCalls 2 OpPool.Tidy ((0, .beginOp) :: logFrom 0 40 1) (binit fun _ => .zero _)
      fun _ => none).any (fun x => decide (x.2.May 0 .endOp ∧ OpPool.Tidy ⟨Pool.init x.1, x.2⟩ 0 .endOp ∧
        x.1.outstanding = 1 ∧ x.1.lh.length = 1)) = true := by decide +kernel
  obtain ⟨⟨s, o⟩, hso, hok⟩ := (Option.any_eq_true _ _).1 hcalls
  obtain ⟨hm, ht, hout, hlen⟩ := of_decide_eq_true hok
  have hP := (reaches_of_opCalls hso).tail (.start .endOp rfl hm ht)
  have hlt : s.lh.length < nbuf := hlen.trans_lt (by decide)
  obtain ⟨r, s', hexec, hpins⟩ := (((commit_buffers_iff (by decide) (fresh_binit _) rfl hP).2 0
    (by simp) hout).1).2 hlt
  exact ⟨_, r, s', hP, hlen, hexec, fun i => (hpins i).1⟩

/-- Three operations log ten blocks each and end. The last `end_op` panics. -/
theorem commit_of_full_log_panics : ∃ P : OpPool,
    OpPool.Reaches 2 OpPool.Tidy (.init (binit fun _ => .zero _)) P ∧
    P.pool.thread 2 = .run .endOp (body 2 .endOp) ∧ P.shared.outstanding = 1 ∧
    (body 2 .endOp).exec 2 P.shared = .panic "bget: no buffers" := by
  have hcalls : (opCalls 2 OpPool.Tidy ([(0, .beginOp), (1, .beginOp), (2, .beginOp)] ++
      logFrom 0 40 10 ++ logFrom 1 50 10 ++ logFrom 2 60 10 ++ [(0, .endOp), (1, .endOp)])
      (binit fun _ => .zero _) fun _ => none).any (fun x => decide (x.2.May 2 .endOp ∧
        OpPool.Tidy ⟨Pool.init x.1, x.2⟩ 2 .endOp ∧ x.1.outstanding = 1 ∧
        panicMsg ((body 2 .endOp).exec 2 x.1) = some "bget: no buffers")) = true := by decide +kernel
  obtain ⟨⟨s, o⟩, hso, hok⟩ := (Option.any_eq_true _ _).1 hcalls
  obtain ⟨hm, ht, hout, hpanic⟩ := of_decide_eq_true hok
  exact ⟨_, (reaches_of_opCalls hso).tail (.start .endOp rfl hm ht), by simp, hout,
    panicMsg_eq_some hpanic⟩

end Xv6
