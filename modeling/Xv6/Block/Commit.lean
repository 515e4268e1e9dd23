import Xv6.Block.Committer

/-!
# `commit` under interference

The loops of `write_log` and `install_trans`, `write_head` and `commit`, from what the committing
thread knows before them to what it knows after them. `commit_share` is the result: `commit` ends
with nothing logged and nothing pinned, whatever the other threads read meanwhile.
-/

namespace Xv6

open Conc BlockSt

variable {ls : ℕ} {t : Tid} {s s' : BlockSt} {i : BufId} {α β : Type} {L P : List ℕ}
  {D V : ℕ → Block} {b : ℕ} {x : Block} {H : List (BufId × ℕ × Block)}

/-! ## `commit`, shared -/

theorem bufData_share {k : Block → Prog BlockSt α} {Q : α → BlockSt → Prop} {C : BlockSt → Prop}
    (hC : Kept ls t C) (hI : Inv ls s) (hH : Holds t H s) (hs : C s) (hi : (i, b, x) ∈ H)
    (hk : ∀ s', Inv ls s' → Holds t H s' → C s' → WP (duty ls t) t (k x) Q s') :
    WP (duty ls t) t (.act (bufData i) k) Q s := by
  refine duty_act (kept_and_holds hC) hI ⟨hH, hs⟩ ?_
  rintro s₀ y s₁ hI₀ ⟨hH₀, hs₀⟩ h₁
  obtain ⟨rfl, rfl⟩ := Outcome.ok.inj h₁
  refine ⟨.refl t _, fun _ => ?_⟩
  rw [(hH₀ _ hi).2.2.2]
  exact hk _ hI₀ hH₀ hs₀

theorem getLh_share {k : List ℕ → Prog BlockSt α} {Q : α → BlockSt → Prop} (hI : Inv ls s)
    (hH : Holds t H s) (hs : CommitSt ls t L P D V s)
    (hk : ∀ s', Inv ls s' → Holds t H s' → CommitSt ls t L P D V s' →
      WP (duty ls t) t (k L) Q s') :
    WP (duty ls t) t (.act getLh k) Q s := by
  refine duty_act (kept_and_holds CommitSt.kept) hI ⟨hH, hs⟩ ?_
  rintro s₀ y s₁ hI₀ ⟨hH₀, hs₀⟩ h₁
  obtain ⟨rfl, rfl⟩ := Outcome.ok.inj h₁
  refine ⟨.refl t _, fun _ => ?_⟩
  rw [hs₀.lh]
  exact hk _ hI₀ hH₀ hs₀

theorem holds_nil : Holds t [] s := fun e he => by cases he

/-- The contents of a held home block are the latest. -/
theorem Holds.latest (hH : Holds t H s) (hI : Inv ls s) (hi : (i, b, x) ∈ H) (hb : Home ls b) :
    x = s.aux.latest b := by
  obtain ⟨-, hv, hc, hd⟩ := hH _ hi
  simp only at hv hc hd
  rw [← hd, hI.data i hv (hc.2 ▸ hb), hc.2]

/-- The contents of a held log block are on the device. -/
theorem Holds.onDisk (hH : Holds t H s) (hi : (i, b, x) ∈ H) (hs : CommitSt ls t L P D V s)
    (hb : InLog ls b) (hlt : b < 2 ^ 31) : x = D b := by
  obtain ⟨-, hv, hc, hd⟩ := hH _ hi
  simp only at hv hc hd
  rw [← hd, hs.sync i hv (hc.2 ▸ hb), hc.2, hs.disk b hlt]

/-- The committing thread knows that the logged blocks are home blocks, and few enough. -/
theorem CommitSt.home (hs : CommitSt ls t L P D V s) (hI : Inv ls s) :
    (∀ b ∈ L, Home ls b) ∧ L.length ≤ logblocks ∧ L.Nodup := by
  rw [← hs.lh]
  exact ⟨fun b hb => (hI.logged b hb).1, hI.room, hI.nodup⟩

theorem writeLogLoop_share (hls : ls + logblocks < 2 ^ 31) {Q : Unit → BlockSt → Prop}
    (hQ : ∀ s' D', Inv ls s' → CommitSt ls t L L D' V s' →
      (∀ k (hk : k < L.length), D' (ls + k + 1) = V L[k]) → Q () s') :
    ∀ (rest : List ℕ) (tail : ℕ) (D : ℕ → Block) (s : BlockSt), L.drop tail = rest →
      Inv ls s → CommitSt ls t L L D V s →
      (∀ k (hk : k < L.length), k < tail → D (ls + k + 1) = V L[k]) →
      WP (duty ls t) t (writeLogLoop ls tail rest) Q s
  | [], tail, D, s, hrest, hI, hs, hlog => by
    have htail := List.drop_eq_nil_iff.1 hrest
    exact duty_ret (kept_and_holds CommitSt.kept) hI ⟨holds_nil, hs⟩ fun s' hI' h =>
      hQ s' D hI' h.2 fun k hk => hlog k hk (by omega)
  | b :: bs, tail, D, s, hrest, hI, hs, hlog => by
    obtain ⟨hlt, hb, hbs⟩ := of_drop_eq_cons hrest
    obtain ⟨hhome, hlen, -⟩ := hs.home hI
    have hbL : b ∈ L := hb ▸ List.getElem_mem hlt
    have hin : InLog ls (ls + tail + 1) := inLog_entry (by omega)
    unfold writeLogLoop
    refine duty_bind (bread_share CommitSt.kept hI holds_nil hs (by
      simp only [logblocks] at hls hlen; omega) fun i y s₁ hI₁ hH₁ _ hs₁ => ?_)
    refine duty_bind (bread_share CommitSt.kept hI₁ hH₁ hs₁ (hhome b hbL).1
      fun j x s₂ hI₂ hH₂ hij hs₂ => ?_)
    have hx : x = V b := by
      rw [hH₂.latest hI₂ List.mem_cons_self (hhome b hbL), hs₂.latest]
    have hij : i ≠ j := hij _ List.mem_cons_self
    simp only [Prog.lift_bind]
    refine bufData_share CommitSt.kept hI₂ hH₂ hs₂ List.mem_cons_self fun s₃ hI₃ hH₃ hs₃ => ?_
    refine store_share (K := [(i, ls + tail + 1, x)]) hI₃ hH₃
      (List.mem_cons_of_mem _ List.mem_cons_self) hs₃ (.inl hin) (fun e he => .inr ?_)
      fun s₄ hI₄ hH₄ hs₄ => ?_
    · exact List.mem_singleton.1 he
    refine duty_bind (brelse_share CommitSt.kept hI₄ hH₄ (fun e he => ?_) hs₄
      fun s₅ hI₅ hH₅ hs₅ => ?_)
    · rw [List.mem_singleton.1 he]
      exact hij
    refine duty_bind (brelse_share CommitSt.kept hI₅ holds_nil (fun e he => by cases he) hs₅
      fun s₆ hI₆ _ hs₆ => ?_)
    refine writeLogLoop_share hls hQ bs (tail + 1) _ s₆ hbs hI₆ hs₆ fun k hk hkt => ?_
    by_cases hkt' : k = tail
    · subst hkt'
      rw [Function.update_self, hx, hb]
    · rw [Function.update_of_ne (by omega)]
      exact hlog k hk (by omega)

/-- `bunpin` of a block that is home on the device. -/
theorem bunpin_share {k : Unit → Prog BlockSt α} {Q : α → BlockSt → Prop} {bs : List ℕ}
    (hI : Inv ls s) (hH : Holds t H s) (hi : (i, b, x) ∈ H) (hs : CommitSt ls t L (b :: bs) D V s)
    (hn : b ∉ bs) (hb : b < 2 ^ 31) (hD : D b = V b)
    (hk : ∀ s', Inv ls s' → Holds t H s' → CommitSt ls t L bs D V s' →
      WP (duty ls t) t (k ()) Q s') :
    WP (duty ls t) t (.act (bunpin i) k) Q s := by
  refine duty_act (kept_and_holds CommitSt.kept) hI ⟨hH, hs⟩ ?_
  rintro s₀ _ s₁ hI₀ ⟨hH₀, hs₀⟩ h₁
  obtain ⟨hl, hv, hc, hd⟩ := hH₀ _ hi
  simp only at hl hv hc hd
  have hpin := pinned_of_mem hI₀ hs₀.pins hc List.mem_cons_self
  have hrefs := hI₀.refs i
  rw [if_pos hpin] at hrefs
  obtain rfl := (Outcome.ok.inj h₁).2
  generalize hs' : ({ s₀.setBuf i { s₀.buf i with refcnt := (s₀.buf i).refcnt - 1 } with
    aux := { s₀.aux with pinned := Function.update s₀.aux.pinned i false } } : BlockSt) = s'
  have hstep : CommitStep ls t i s₀ s' := by
    subst hs'
    refine ⟨hs₀.committer, hl, rfl, fun j hj => by simp [setBuf, hj], by simp, ?_, fun hp => ?_,
      fun hh => ?_, fun _ _ _ => rfl, fun _ _ => rfl, fun _ => .inr ?_⟩
    · simp [hrefs]
    · simp at hp
    · simpa using hI₀.data i hv hh
    · rw [hc.2, hs₀.latest, ← hD]
      exact hs₀.disk b hb
  have hsame : ∀ j, SameHeld (s₀.buf j) (s'.buf j) := fun j => by
    subst hs'
    by_cases hji : j = i
    · subst hji
      exact ⟨by simp, by simp, by simp, by simp, by simp⟩
    · simp only [setBuf_buf_of_ne _ _ hji]
      exact .refl _
  refine ⟨hstep.guar, fun hI₁ => hk s' hI₁ (fun e he => ?_) ⟨?_, ?_, ?_, ?_, fun c hc' => ?_,
    fun j hj => ?_, fun j hvj hlj => ?_⟩⟩
  · obtain ⟨hl', hv', hc', hd'⟩ := hH₀ e he
    exact ⟨(hsame e.1).lock.trans hl', (hsame e.1).valid.trans hv', (hstep.carries _ _).2 hc',
      (hsame e.1).data.trans hd'⟩
  · exact hs' ▸ hs₀.committer
  · exact hs' ▸ hs₀.lh
  · exact hs' ▸ hs₀.disk
  · exact hs' ▸ hs₀.latest
  · obtain ⟨j, hj, hp⟩ := hs₀.pins c (List.mem_cons_of_mem _ hc')
    have hji : j ≠ i := by
      rintro rfl
      exact hn (hc.2.symm.trans hj.2 ▸ hc')
    exact ⟨j, (hstep.carries j c).2 hj, (hstep.other j hji).2.trans hp⟩
  · have hji : j ≠ i := by
      rintro rfl
      simp [← hs'] at hj
    rw [(hstep.other j hji).2] at hj
    rw [(hstep.other j hji).1]
    refine (List.mem_cons.1 (hs₀.only j hj)).resolve_left fun he => hji ?_
    exact hI₀.wf.uniq j i b ⟨(hI₀.used j (.inl (hI₀.pin j hj).1)).1, he⟩ hc
  · rw [(hsame j).valid] at hvj
    rw [(hsame j).blockno] at hlj
    have hdisk : s'.disk = s₀.disk := hs' ▸ rfl
    rw [(hsame j).data, (hsame j).blockno, hdisk]
    exact hs₀.sync j hvj hlj

theorem installLoop_share (hls : ls + logblocks < 2 ^ 31) {Q : Unit → BlockSt → Prop}
    (hQ : ∀ s' D', Inv ls s' → CommitSt ls t L [] D' V s' → Q () s') :
    ∀ (rest : List ℕ) (tail : ℕ) (D : ℕ → Block) (s : BlockSt), L.drop tail = rest →
      Inv ls s → CommitSt ls t L rest D V s →
      (∀ k (hk : k < L.length), D (ls + k + 1) = V L[k]) →
      WP (duty ls t) t (installLoop ls false tail rest) Q s
  | [], tail, D, s, hrest, hI, hs, hlog =>
    duty_ret (kept_and_holds CommitSt.kept) hI ⟨holds_nil, hs⟩ fun s' hI' h => hQ s' D hI' h.2
  | b :: bs, tail, D, s, hrest, hI, hs, hlog => by
    obtain ⟨hlt, hb, hbs⟩ := of_drop_eq_cons hrest
    obtain ⟨hhome, hlen, hnd⟩ := hs.home hI
    have hbL : b ∈ L := hb ▸ List.getElem_mem hlt
    have hnb : b ∉ bs := by
      have := hrest ▸ hnd.sublist (List.drop_sublist tail L)
      exact (List.nodup_cons.1 this).1
    have hin : ∀ k < L.length, InLog ls (ls + k + 1) := fun k hk => inLog_entry (by omega)
    have hlog' : ls + tail + 1 < 2 ^ 31 := by
      simp only [logblocks] at hls hlen
      omega
    unfold installLoop
    refine duty_bind (bread_share CommitSt.kept hI holds_nil hs hlog' fun i x s₁ hI₁ hH₁ _ hs₁ => ?_)
    have hx : x = V b := by
      rw [hH₁.onDisk List.mem_cons_self hs₁ (hin tail hlt) hlog', hlog tail hlt, hb]
    refine duty_bind (bread_share CommitSt.kept hI₁ hH₁ hs₁ (hhome b hbL).1
      fun j y s₂ hI₂ hH₂ hij hs₂ => ?_)
    have hij : i ≠ j := hij _ List.mem_cons_self
    simp only [Prog.lift_bind]
    refine bufData_share CommitSt.kept hI₂ hH₂ hs₂ (List.mem_cons_of_mem _ List.mem_cons_self)
      fun s₃ hI₃ hH₃ hs₃ => ?_
    refine store_share (K := [(j, b, x)]) hI₃ hH₃ List.mem_cons_self hs₃
      (.inr ⟨List.mem_cons_self, hx⟩) (fun e he => .inr (List.mem_singleton.1 he))
      fun s₄ hI₄ hH₄ hs₄ => ?_
    refine bunpin_share hI₄ hH₄ List.mem_cons_self hs₄ hnb (hhome b hbL).1
      (by rw [Function.update_self, hx]) fun s₅ hI₅ hH₅ hs₅ => ?_
    refine duty_bind (brelse_share CommitSt.kept hI₅ hH₅ (fun e he => ?_) hs₅
      fun s₆ hI₆ _ hs₆ => ?_)
    · rw [List.mem_singleton.1 he]
      exact hij.symm
    refine duty_bind (brelse_share CommitSt.kept hI₆ holds_nil (fun e he => by cases he) hs₆
      fun s₇ hI₇ _ hs₇ => ?_)
    refine installLoop_share hls hQ bs (tail + 1) _ s₇ hbs hI₇ hs₇ fun k hk => ?_
    rw [Function.update_of_ne ((hhome b hbL).ne (hin k hk)).symm]
    exact hlog k hk

theorem writeHead_share (hls : ls < 2 ^ 31) {Q : Unit → BlockSt → Prop} (hI : Inv ls s)
    (hs : CommitSt ls t L P D V s)
    (hQ : ∀ s' x, Inv ls s' → CommitSt ls t L P (Function.update D ls x) V s' → Q () s') :
    WP (duty ls t) t (writeHead ls) Q s := by
  unfold writeHead
  refine duty_bind (bread_share CommitSt.kept hI holds_nil hs hls fun i x s₁ hI₁ hH₁ _ hs₁ => ?_)
  simp only [Prog.lift_bind]
  refine getLh_share hI₁ hH₁ hs₁ fun s₂ hI₂ hH₂ hs₂ => ?_
  refine bufData_share CommitSt.kept hI₂ hH₂ hs₂ List.mem_cons_self fun s₃ hI₃ hH₃ hs₃ => ?_
  refine store_share (K := []) hI₃ hH₃ List.mem_cons_self hs₃ (.inl inLog_header)
    (fun e he => by cases he) fun s₄ hI₄ hH₄ hs₄ => ?_
  exact brelse_share CommitSt.kept hI₄ holds_nil (fun e he => by cases he) hs₄
    fun s₅ hI₅ _ hs₅ => hQ s₅ _ hI₅ hs₅

/-- `log_lh.n = 0`, with every logged block installed. -/
theorem setLh_share {k : Unit → Prog BlockSt α} {Q : α → BlockSt → Prop} (hI : Inv ls s)
    (hs : CommitSt ls t L [] D V s)
    (hk : ∀ s', Inv ls s' → CommitSt ls t [] [] D V s' → WP (duty ls t) t (k ()) Q s') :
    WP (duty ls t) t (.act (setLh []) k) Q s := by
  refine duty_act (kept_and_holds CommitSt.kept) hI ⟨holds_nil, hs⟩ ?_
  rintro s₀ _ s₁ hI₀ ⟨-, hs₀⟩ h₁
  obtain rfl := (Outcome.ok.inj h₁).2
  have hnp : ∀ i, s₀.aux.pinned i ≠ true := fun i hi => by
    have := hs₀.only i hi
    cases this
  refine ⟨fun _ => ⟨⟨⟨hI₀.wf.uniq, hI₀.wf.mem_lru⟩, hI₀.used, hI₀.refs, hI₀.locked, fun i hi => absurd hi (hnp i), hI₀.data,
    fun b hb _ => ?_, fun b hb => (by cases hb), List.nodup_nil, Nat.zero_le _, hI₀.idle, hI₀.busy⟩,
    fun u hu => ⟨⟨fun j _ _ => ⟨.refl _, rfl⟩, fun hc => ?_⟩, fun _ => rfl, fun _ _ => ⟨rfl, rfl⟩,
      fun _ h => h⟩, fun _ _ => rfl⟩, fun hI₁ => hk _ hI₁ ⟨hs₀.committer, rfl, hs₀.disk, hs₀.latest,
        fun b hb => (by cases hb), hs₀.only, hs₀.sync⟩⟩
  · by_cases hlh : b ∈ s₀.lh
    · rcases (hI₀.logged b hlh).2 with ⟨i, -, hp⟩ | ⟨-, hd⟩
      · exact absurd hp (hnp i)
      · exact hd
    · exact hI₀.unlogged b hb hlh
  · rw [hs₀.committer] at hc
    exact absurd (Option.some.inj hc).symm hu

/-- **`commit`, shared**: it ends with nothing logged and nothing pinned. -/
theorem commit_share (hls : ls + logblocks < 2 ^ 31) {Q : Unit → BlockSt → Prop} (hI : Inv ls s)
    (hs : CommitSt ls t L L D V s)
    (hQ : ∀ s' D', Inv ls s' → CommitSt ls t [] [] D' V s' → Q () s') :
    WP (duty ls t) t (commit ls) Q s := by
  have hls' : ls < 2 ^ 31 := by omega
  unfold commit
  simp only [Prog.lift_bind]
  refine getLh_share hI holds_nil hs fun s₁ hI₁ _ hs₁ => ?_
  by_cases hn : L.length > 0
  · rw [if_pos hn]
    unfold writeLog
    simp only [Prog.lift_bind, Prog.act_bind]
    refine getLh_share hI₁ holds_nil hs₁ fun s₂ hI₂ _ hs₂ => ?_
    refine duty_bind (writeLogLoop_share hls (fun s₃ D₃ hI₃ hs₃ hlog => ?_) L 0 D s₂ rfl hI₂ hs₂
      fun k _ hk => absurd hk (Nat.not_lt_zero k))
    refine duty_bind (writeHead_share hls' hI₃ hs₃ fun s₄ x hI₄ hs₄ => ?_)
    unfold installTrans
    simp only [Prog.lift_bind, Prog.act_bind]
    refine getLh_share hI₄ holds_nil hs₄ fun s₅ hI₅ _ hs₅ => ?_
    refine duty_bind (installLoop_share hls (fun s₆ D₆ hI₆ hs₆ => ?_) L 0 _ s₅ rfl hI₅ hs₅ fun k hk => ?_)
    · refine setLh_share hI₆ hs₆ fun s₇ hI₇ hs₇ => ?_
      exact writeHead_share hls' hI₇ hs₇ fun s₈ y hI₈ hs₈ => hQ s₈ _ hI₈ hs₈
    · rw [Function.update_of_ne (by omega)]
      exact hlog k hk
  · rw [if_neg hn]
    have hnil : L = [] := List.length_eq_zero_iff.1 (by omega)
    subst hnil
    exact duty_ret (kept_and_holds CommitSt.kept) hI₁ ⟨holds_nil, hs₁⟩ fun s' hI' h =>
      hQ s' D hI' h.2

end Xv6
