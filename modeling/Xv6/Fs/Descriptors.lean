import Xv6.Fs.Calls

/-!
# Calls on descriptors, and files of processes

Rules for `sys_dup`, `sys_read`, `sys_write`, `sys_close`, `sys_fstat` and `sys_pipe`, and for what
`exec`, `fork` and `exit` do with files. None of them makes or removes a name.
-/

namespace Xv6

open Conc Eff Vol Count

/-- Few blocks are logged when a few of each kind are. -/
theorem Logs.card_le {sb : Superblock} {s s' : FsSt} {D B I : Finset ℕ} (hl : Logs sb s s' D B I)
    (h0 : s.wrote = ∅) : s'.wrote.card ≤ D.card + B.card + I.card := by
  have hsub : s'.wrote ⊆ D ∪ B.image (bblock · sb) ∪ I.image (iblock · sb) := by
    intro b hb
    rcases hl.wrote b hb with hb | hb | ⟨a, ha, rfl⟩ | ⟨i, hi, rfl⟩
    · rw [h0] at hb
      exact absurd hb (Finset.notMem_empty _)
    · exact Finset.mem_union_left _ (Finset.mem_union_left _ hb)
    · exact Finset.mem_union_left _ (Finset.mem_union_right _ (Finset.mem_image_of_mem _ ha))
    · exact Finset.mem_union_right _ (Finset.mem_image_of_mem _ hi)
  have h₁ := Finset.card_le_card hsub
  have h₂ := Finset.card_union_le (D ∪ B.image (bblock · sb)) (I.image (iblock · sb))
  have h₃ := Finset.card_union_le D (B.image (bblock · sb))
  have h₄ : (B.image (bblock · sb)).card ≤ B.card := Finset.card_image_le
  have h₅ : (I.image (iblock · sb)).card ≤ I.card := Finset.card_image_le
  omega

namespace Fs

variable {α : Type} {err : String → Prop} {sb : Superblock} {t : Tid} {s : FsSt} {T : Tab}
  {V : Vol} {h : Hand} {b : Bound} {p np : ProcId} {ip jp : InodeId} {i : ℕ} {f : FileId}
  {fd : Fin nofile}

/-! ## Descriptors -/

theorem argfd_during {fd : ℤ} {Q : Option (Fin nofile × FileId) → FsSt → Prop}
    (hd : During sb t s T V h) (hnone : Q none s)
    (hsome : ∀ fd f, (T.proc p).ofile fd = some f → Q (some (fd, f)) s) :
    wp (store t) err (argfd p fd) Q s := by
  refine gets_during hd fun m hc => ?_
  split
  · rename_i hfd
    have hofile : (m.proc p).ofile = (T.proc p).ofile := by
      rw [← hc.tab]
      rfl
    rw [hofile]
    cases hf : (T.proc p).ofile ⟨fd.toNat, by omega⟩ with
    | none => exact hnone
    | some f => exact hsome _ f hf
  · exact hnone

/-- A file that a descriptor points to is not closed. -/
theorem ref_of_ofile (hf : Files T (.idle b)) (hfd : (T.proc p).ofile fd = some f) :
    (T.ftable f).ref ≠ 0 ∧ (T.ftable f).type ≠ .none := by
  have hpos := Tab.fds_pos hfd
  have hr : (T.ftable f).ref + 0 = T.fds f + 0 := hf.ref f
  exact ⟨by omega, hf.typed f hpos⟩

/-- `sys_dup`. -/
theorem sysDup_during {n : ℤ} {Q : ℤ → FsSt → Prop} (hd : During sb t s T V (.idle b))
    (hQ : ∀ r s' T', During sb t s' T' V (.idle b) → T'.aux = T.aux → Q r s') :
    wp (store t) err (sysDup p n) Q s := by
  refine wp_bind (argfd_during hd (wp_pure (hQ _ s T hd rfl)) fun fd₀ f hfd => ?_)
  refine wp_bind (fdalloc_during hd (fun s₁ _ hd₁ => wp_pure (hQ _ s₁ T hd₁ rfl))
    fun fd s₁ hnone hd₁ => ?_)
  have hfds : T.fds f + 1 = (T.setOfile p fd (some f)).fds f := by
    have hput : (T.setOfile p fd (some f)).fds f + (if (T.proc p).ofile fd = some f then 1 else 0) =
        T.fds f + if some f = some f then 1 else 0 := Tab.fds_setOfile
    rw [hnone, if_neg (by simp), if_pos rfl] at hput
    omega
  have hpos := Tab.fds_pos hfd
  refine wp_bind (filedup_during hd₁ ?_ fun s₂ hd₂ => wp_pure (hQ _ s₂ _ (during_settle hd₂ ?_) rfl))
  · simp only [Hand.idle, List.count_cons_self, List.count_nil]
    omega
  · rw [Tab.setFile_ftable_self]
    exact (ref_of_ofile hd.files hfd).2

/-- `sys_close`. -/
theorem sysClose_during {n : ℤ} {Q : ℤ → FsSt → Prop} (hd : During sb t s T V (.idle b))
    (hb : b.Ok sb)
    (hQ : ∀ r s' T' W, During sb t s' T' W (.idle b) → T'.aux = T.aux → NameCalm V W → Q r s') :
    wp (store t) err (sysClose p n) Q s := by
  refine wp_bind (argfd_during hd (wp_pure (hQ _ s T V hd rfl (.refl V))) fun fd f hfd => ?_)
  refine wp_bind (clearOfile_during hd hfd fun s₁ hd₁ => ?_)
  have hd₁' : During sb t s₁ (T.setOfile p fd none) V (.keeping b [f] []) := hd₁
  exact wp_bind (fileclose_during hb hd₁' (Nat.zero_le _) fun s₂ T' W hd₂ hT hcalm =>
    wp_pure (hQ _ s₂ T' W hd₂ hT.2 hcalm))

/-! ## Reads and writes -/

/-- A chunk of `filewrite` logs few blocks, whatever the size of the free map. -/
theorem WriteLogs.card_le {s' : FsSt} {W : Vol} {off n : ℕ}
    (hl : WriteLogs sb s s' V W i off n {i}) (h0 : s.wrote = ∅) (hn : n ≤ 3072)
    (hfill : V.Filled i) (hoff : off ≤ (V.ino i).size) : s'.wrote.card ≤ maxopblocks := by
  obtain ⟨R, S, hl, hR, hS⟩ := hl
  have h₁ := hl.card_le h0
  have h₂ := Finset.card_union_le R (only ((W.ino i).addrs 12))
  have h₃ := Finset.card_union_le S (if (V.ino i).addrs 12 = 0 then only ((W.ino i).addrs 12) else ∅)
  have h₄ : (only ((W.ino i).addrs 12)).card ≤ 1 := card_only_le
  have h₅ : (if (V.ino i).addrs 12 = 0 then only ((W.ino i).addrs 12) else ∅).card ≤ 1 := by
    split
    · exact h₄
    · exact Nat.zero_le _
  have h₆ : turns off n ≤ 4 := by
    unfold turns
    simp only [bsize]
    split <;> omega
  -- a chunk of four blocks starts inside a block of the file
  have h₇ : turns off n = 4 → V.ref i (.ofIndex (off / bsize)) ≠ 0 := fun h4 => by
    refine hfill.block _ ?_
    unfold turns at h4
    simp only [bsize] at *
    split at h4 <;> omega
  rw [Finset.card_singleton] at h₁
  simp only [maxopblocks]
  split at hS <;> omega

/-- A store to `f->off`. -/
theorem advance_during {r : ℕ} {Q : Unit → FsSt → Prop} (hd : During sb t s T V h)
    (href : (T.ftable f).ref ≠ 0) (hf : (T.ftable f).Refers ip)
    (hQ : ∀ s', During sb t s' (T.setFile f { T.ftable f with off := (T.ftable f).off + r }) V h →
      Logs sb s s' ∅ ∅ ∅ → Q () s') : wp (store t) err (advance f r) Q s := by
  have htype : (T.ftable f).type ≠ .pipe ∧ (T.ftable f).type ≠ .none := by
    rcases hf.1 with h | h <;> rw [h] <;> decide
  exact modify_during (T.setFile f { T.ftable f with off := (T.ftable f).off + r }) h hd
    (fun _ => rfl) (fun _ => rfl) (fun m hm => by subst hm; rfl)
    (fun I hs => slots_setFile hs rfl rfl rfl) (fun hfl => hfl.refer rfl href htype.1 htype.1 htype.2)
    ⟨rfl, rfl, rfl, rfl⟩ hQ

/-- `ilock` of the inode of an open file. -/
theorem ilockFile_during {Q : Unit → FsSt → Prop} (hd : During sb t s T V h) (howed : h.owed = [])
    (hf : (T.ftable f).Refers ip)
    (hQ : ∀ s' i, During sb t s' T V (h.lock ip i) → Logs sb s s' ∅ ∅ ∅ → Q () s') :
    wp (store t) err (ilock ip) Q s := by
  have hpos := Tab.users_pos_of_file hf
  refine ilock_during hd ?_ (.inr (.inl ?_)) fun s' i hd' _ hl => hQ s' i hd' hl
  · unfold Hand.Used
    rw [howed, List.count_nil]
    omega
  · rw [howed, List.count_nil]
    exact hpos

/-- `fileread`. -/
theorem fileread_during {dst : Dst} {n dev : ℤ} {Q : ℤ × List UInt8 → FsSt → Prop}
    (hd : During sb t s T V (.idle b)) (hfd : (T.proc p).ofile fd = some f)
    (hQ : ∀ r s' T', During sb t s' T' V (.idle b) → T'.aux = T.aux → Q r s') :
    wp (store t) err (fileread f dst n dev) Q s := by
  obtain ⟨href, hnone⟩ := ref_of_ofile hd.files hfd
  refine wp_bind (gets_during hd fun m hc => ?_)
  have hm : m.ftable f = T.ftable f := by
    rw [← hc.tab]
    rfl
  rw [hm]
  split
  · exact wp_pure (hQ _ s T hd rfl)
  cases ht : (T.ftable f).type with
  | pipe => exact wp_pure (hQ _ s T hd rfl)
  | device => exact wp_pure (hQ _ s T hd rfl)
  | none => exact absurd ht hnone
  | inode =>
    have hf : (T.ftable f).Refers (T.ftable f).ip := ⟨.inl ht, rfl⟩
    have hend : ∀ r s' T' i, During sb t s' T' V ((Hand.idle b).lock (T.ftable f).ip i) →
        T'.aux = T.aux → wp (store t) err (do iunlock (T.ftable f).ip; return r) Q s' :=
      fun r s' T' i hd' ha => wp_bind (iunlock_during hd' fun s'' hd'' _ =>
        wp_pure (hQ r s'' T' hd'' ha))
    refine wp_bind (ilockFile_during hd rfl hf fun s₁ i hd₁ _ => ?_)
    refine wp_bind (readi_during hd₁ List.mem_cons_self fun r => ?_)
    split
    · exact wp_bind (advance_during hd₁ href hf fun s₂ hd₂ _ => hend r s₂ _ i hd₂ rfl)
    · exact hend r s₁ T i hd₁ rfl

/-- `sys_read`. -/
theorem sysRead_during {fd n dev : ℤ} {w : ℕ → Bool} {va : ℕ} {Q : ℤ → FsSt → Prop}
    (hd : During sb t s T V (.idle b))
    (hQ : ∀ r s' T', During sb t s' T' V (.idle b) → T'.aux = T.aux → Q r s') :
    wp (store t) err (sysRead p fd w va n dev) Q s := by
  refine wp_bind (argfd_during hd (wp_pure (hQ _ s T hd rfl)) fun fd f hfd => ?_)
  exact wp_bind (fileread_during hd hfd fun r s' T' hd' ha => wp_pure (hQ _ s' T' hd' ha))

/-- `sys_fstat`. -/
theorem sysFstat_during {fd : ℤ} {ok : Bool} {Q : ℤ → FsSt → Prop}
    (hd : During sb t s T V (.idle b)) (hQ : ∀ r s', During sb t s' T V (.idle b) → Q r s') :
    wp (store t) err (sysFstat p fd ok) Q s := by
  refine wp_bind (argfd_during hd (wp_pure (hQ _ s hd)) fun fd f hfd => ?_)
  refine wp_bind (wp_bind (gets_during hd fun m hc => ?_))
  have hm : m.ftable f = T.ftable f := by
    rw [← hc.tab]
    rfl
  rw [hm]
  split
  · rename_i ht
    refine wp_bind (ilockFile_during hd rfl ⟨ht, rfl⟩ fun s₁ i hd₁ _ => ?_)
    refine wp_bind (gets_during hd₁ fun m hc => ?_)
    exact wp_bind (iunlock_during hd₁ fun s₂ hd₂ _ => wp_pure (wp_pure (hQ _ s₂ hd₂)))
  · exact wp_pure (wp_pure (hQ _ s hd))

/-- A file open for writing is no directory. -/
theorem not_dir_of_writable (hd : During sb t s T V h) (hx : (ip, i) ∈ h.locks) (howed : h.owed = [])
    (hf : (T.ftable f).Refers ip) (hw : (T.ftable f).writable = true) : (V.ino i).type ≠ tDir := by
  obtain ⟨m, -, hc, -⟩ := hd
  have := hc.slots.writable f ip hf hw (by rw [howed]; exact Tab.users_pos_of_file hf)
  rwa [hc.slots.name (ip, i) (.inr hx)] at this

/-- A chunk of `filewrite`, before `k`. -/
theorem writeChunk_bind {u : UserMem} {va n : ℕ} {k : ℤ → Fs α} {Q : α → FsSt → Prop}
    (hd : During sb t s T V (.idle b)) (hb : b.when → maxopblocks ≤ b.peak) (hn : n ≤ 3072)
    (href : (T.ftable f).ref ≠ 0) (hf : (T.ftable f).Refers ip) (hw : (T.ftable f).writable = true)
    (hQ : ∀ r s' T' W, During sb t s' T' W (.idle b) → T'.aux = T.aux → T'.proc = T.proc →
      (T'.ftable f).Refers ip → (T'.ftable f).writable = true → (T'.ftable f).ref ≠ 0 → NameCalm V W →
      wp (store t) err (k r) Q s') :
    wp (store t) err (do
      beginOp
      ilock ip
      let off ← gets fun m => (m.ftable f).off
      let r ← writei ip (.user u va) off n
      if 0 < r then
        advance f r.toNat
      iunlock ip
      endOp
      k r) Q s := by
  refine wp_bind (beginOp_wp ?_)
  have hd₁ := During.opened hd rfl
  refine wp_bind (ilockFile_during hd₁ rfl hf fun s₂ i hd₂ hlog₂ => ?_)
  have h0 : s₂.wrote = ∅ := Finset.card_eq_zero.1 (Nat.le_zero.1 hlog₂.wrote_card)
  have htd : (V.ino i).type ≠ tDir := not_dir_of_writable hd₂ List.mem_cons_self rfl hf hw
  have ht : (V.ino i).type ≠ 0 := hd₂.type_ne (x := (ip, i)) List.mem_cons_self
  refine wp_bind (gets_during hd₂ fun m hc => ?_)
  -- the rest of the chunk, after `writei`
  have hrest : ∀ (r : ℤ) s' W n' I, During sb t s' T W (.hold b [] [(ip, i)] [] n' I) →
      s'.wrote.card ≤ maxopblocks → NameCalm V W → wp (store t) err (do
        if 0 < r then
          advance f r.toNat
        iunlock ip
        endOp
        k r) Q s' := by
    intro r s' W n' I hd' hcard hcalm
    have hend : ∀ s'' T', During sb t s'' T' W (.hold b [] [(ip, i)] [] n' I) → T'.aux = T.aux →
        T'.proc = T.proc → (T'.ftable f).Refers ip → (T'.ftable f).writable = true →
        (T'.ftable f).ref ≠ 0 → s''.wrote.card ≤ maxopblocks →
        wp (store t) err (do iunlock ip; endOp; k r) Q s'' := by
      intro s'' T' hd'' ha hp hf' hw' href' hcard'
      have hd₃ : During sb t s'' T' W ((Hand.hold b [] [] [] n' I).lock ip i) := hd''
      refine wp_bind (iunlock_during hd₃ fun s₄ hd₄ hlog₄ => ?_)
      refine wp_bind (endOp_during hd₄ rfl (fun hwhen => ?_) fun s₅ hd₅ =>
        hQ r s₅ T' W hd₅ ha hp hf' hw' href' hcalm)
      exact ((hlog₄.wrote_card).trans hcard').trans (hb hwhen)
    split
    · exact wp_bind (advance_during hd' href hf fun s'' hd'' hlog => hend s'' _ hd'' rfl rfl
        (by rw [Tab.setFile_ftable_self]; exact hf) (by rw [Tab.setFile_ftable_self]; exact hw)
        (by rw [Tab.setFile_ftable_self]; exact href) (hlog.wrote_card.trans hcard))
    · exact hend s' T hd' rfl rfl hf hw href hcard
  refine wp_bind (writei_during hd₂ rfl List.mem_cons_self (fun h => absurd h htd)
    (fun h => absurd h htd) (fun _ => ?_)
    fun s₃ W r hoff hr _ hd₃ hself hino hnode _ _ hlogs => ?_)
  · refine hrest (-1) s₂ V 0 ∅ hd₂ ?_ (.refl V)
    rw [h0]
    exact Nat.zero_le _
  · refine hrest r s₃ W _ _ hd₃ (WriteLogs.card_le hlogs h0 hn (hd₂.ok.filled i ht) hoff)
      (.of_self hnode ?_)
    have hW : W.node i = { V.node i with size := (W.node i).size, data := (W.node i).data } := by
      rw [node_of_ne (by rw [hself]; exact ht), node_of_ne ht, hself]
    rw [hW]
    exact .wrote (by rw [node_type]; exact ht) (by rw [node_type]; exact htd) _ _

/-- The loop of `filewrite`. -/
theorem filewriteLoop_during {u : UserMem} {va n k j : ℕ} {Q : ℕ → FsSt → Prop}
    (hd : During sb t s T V (.idle b)) (hb : b.when → maxopblocks ≤ b.peak)
    (href : (T.ftable f).ref ≠ 0) (hf : (T.ftable f).Refers ip) (hw : (T.ftable f).writable = true)
    (hQ : ∀ r s' T' W, During sb t s' T' W (.idle b) → T'.aux = T.aux → NameCalm V W → Q r s') :
    wp (store t) err (filewriteLoop f ip u va n k j) Q s := by
  induction k generalizing s T V j with
  | zero => exact wp_pure (hQ j s T V hd rfl (.refl V))
  | succ k ih =>
    unfold filewriteLoop
    split
    · refine writeChunk_bind hd hb (Nat.min_le_right _ _) href hf hw
        fun r s' T' W hd' ha hp hf' hw' href' hcalm => ?_
      split
      · refine ih hd' href' hf' hw' fun r s'' T'' X hd'' ha' hcalm' => ?_
        exact hQ r s'' T'' X hd'' (ha'.trans ha) (hcalm.trans hcalm')
      · exact wp_pure (hQ j s' T' W hd' ha hcalm)
    · exact wp_pure (hQ j s T V hd rfl (.refl V))

/-- `sys_write`. -/
theorem sysWrite_during {fd n dev : ℤ} {u : UserMem} {va : ℕ} {Q : ℤ → FsSt → Prop}
    (hd : During sb t s T V (.idle b)) (hb : b.when → maxopblocks ≤ b.peak)
    (hQ : ∀ r s' T' W, During sb t s' T' W (.idle b) → T'.aux = T.aux → NameCalm V W → Q r s') :
    wp (store t) err (sysWrite p fd u va n dev) Q s := by
  refine wp_bind (argfd_during hd (wp_pure (hQ _ s T V hd rfl (.refl V))) fun fd f hfd => ?_)
  obtain ⟨href, hnone⟩ := ref_of_ofile hd.files hfd
  refine wp_bind (gets_during hd fun m hc => ?_)
  have hm : m.ftable f = T.ftable f := by
    rw [← hc.tab]
    rfl
  rw [hm]
  split
  · exact wp_pure (hQ _ s T V hd rfl (.refl V))
  rename_i hw
  rw [Bool.not_eq_false] at hw
  cases ht : (T.ftable f).type with
  | pipe => exact wp_pure (hQ _ s T V hd rfl (.refl V))
  | device => exact wp_pure (hQ _ s T V hd rfl (.refl V))
  | none => exact absurd ht hnone
  | inode =>
    exact wp_bind (filewriteLoop_during hd hb href ⟨.inl ht, rfl⟩ hw
      fun r s' T' W hd' ha hcalm => wp_pure (hQ _ s' T' W hd' ha hcalm))

/-! ## Pipes -/

/-- The order of references to files does not matter. -/
theorem during_files_perm {l l' k k' : List FileId}
    (hd : During sb t s T V { h with files := l, fowed := k }) (hl : l.Perm l') (hk : k.Perm k') :
    During sb t s T V { h with files := l', fowed := k' } := by
  obtain ⟨m, hs, hc, hp⟩ := hd
  refine ⟨m, hs, ⟨hc.super, hc.tab, hc.ok, hc.ents, slots_files hc.slots l' k', ?_⟩, hp.wrote, hp.spent,
    hp.ops⟩
  refine ⟨fun g => ?_, hc.files.closed, fun g hg => hc.files.typed g ?_, hc.files.ends, hc.files.page⟩
  · simp only [← hl.count_eq g, ← hk.count_eq g]
    exact hc.files.ref g
  · simp only [← hk.count_eq g] at hg
    exact hg

/-- Two files are closed, and the call fails. -/
theorem closeBoth_during {g : FileId} {Q : ℤ → FsSt → Prop} (hb : b.Ok sb)
    (hd : During sb t s T V (.keeping b [f, g] []))
    (hQ : ∀ s' T' W, During sb t s' T' W (.idle b) → T'.aux = T.aux → NameCalm V W → Q (-1) s') :
    wp (store t) err (do fileclose f; fileclose g; return -1) Q s :=
  wp_bind (fileclose_during hb hd (Nat.zero_le _) fun _ _ _ hd₁ hT₁ hcalm₁ =>
    wp_bind (fileclose_during hb hd₁ (Nat.zero_le _) fun s₂ T₂ W hd₂ hT₂ hcalm₂ =>
      wp_pure (hQ s₂ T₂ W hd₂ (hT₂.2.trans hT₁.2) (hcalm₁.trans hcalm₂))))

/-- The stores of `pipealloc`, before `k`. -/
theorem pipeStore_bind {f₁ : FileId} {a : PipeId} {k : Unit → Fs α} {Q : α → FsSt → Prop}
    (hd : During sb t s T V h) (hne : f₁ ≠ f) (hnone : T.pipe a = none)
    (h0 : (T.ftable f).ref ≠ 0) (h0₁ : (T.ftable f₁).ref ≠ 0) (ht : (T.ftable f).type = .none)
    (ht₁ : (T.ftable f₁).type = .none)
    (hQ : ∀ s' T', During sb t s' T' V h → T'.aux = T.aux → T'.proc = T.proc →
      (T'.ftable f).type ≠ .none → (T'.ftable f₁).type ≠ .none → wp (store t) err (k ()) Q s') :
    wp (store t) err (do
      modify fun m => m.setPipe a (some ⟨true, true⟩)
      modify fun m => m.setFile f
        { m.ftable f with type := .pipe, readable := true, writable := false, pipe := a }
      modify fun m => m.setFile f₁
        { m.ftable f₁ with type := .pipe, readable := false, writable := true, pipe := a }
      k ()) Q s := by
  obtain ⟨m, hs, hc, hp⟩ := hd
  obtain rfl := hc.super
  obtain rfl := hc.tab
  refine wp_bind (modify_wp hs rfl fun s₁ h₁ hlog₁ => ?_)
  refine wp_bind (modify_wp h₁ rfl fun s₂ h₂ hlog₂ => ?_)
  refine wp_bind (modify_wp h₂ rfl fun s₃ h₃ hlog₃ => ?_)
  have hsl : Slots m.sb t (m.tab.setPipe a (some ⟨true, true⟩)) m.itable V h :=
    hc.slots.retab (fun _ => rfl) fun _ _ hf hw => ⟨hf, hw⟩
  refine hQ s₃ _ ⟨_, h₃, ⟨rfl, rfl, hc.ok, hc.ents, ?_, ?_⟩,
    ((hp.keep hlog₁ rfl rfl rfl rfl).keep hlog₂ rfl rfl rfl rfl).keep hlog₃ rfl rfl rfl rfl⟩ rfl rfl ?_ ?_
  · refine slots_closeFile (f := f₁) (slots_closeFile (f := f) hsl (by simp) ?_) (by simp) ?_
    · rw [show (m.tab.setPipe a (some ⟨true, true⟩)).ftable f = m.tab.ftable f from rfl, ht]
      simp
    · rw [Tab.setFile_ftable_of_ne hne,
        show (m.tab.setPipe a (some ⟨true, true⟩)).ftable f₁ = m.tab.ftable f₁ from rfl, ht₁]
      simp
  · refine hc.files.openPipe (f := f) hne hnone h0 h0₁ ht ht₁ rfl ?_ ⟨rfl, rfl, rfl⟩ ⟨rfl, rfl, rfl⟩
    simp [Mem.setFile, Mem.setPipe, Mem.tab, hne]
  · simp [Mem.setFile, Mem.setPipe, Mem.tab, hne.symm]
  · simp [Mem.setFile, Mem.setPipe, Mem.tab]

/-- `pipealloc`. -/
theorem pipealloc_during {page : Option PipeId} {Q : Option (FileId × FileId) → FsSt → Prop}
    (hd : During sb t s T V (.idle b)) (hb : b.Ok sb) (hpage : ∀ a ∈ page, T.pipe a = none)
    (hnone : ∀ s' T' W, During sb t s' T' W (.idle b) → T'.aux = T.aux → NameCalm V W → Q none s')
    (hsome : ∀ s' T' f g, During sb t s' T' V (.keeping b [f, g] []) → T'.aux = T.aux →
      T'.proc = T.proc → (T'.ftable f).type ≠ .none → (T'.ftable g).type ≠ .none → Q (some (f, g)) s') :
    wp (store t) err (pipealloc page) Q s := by
  refine wp_bind (filealloc_during hd (fun s₁ _ hd₁ => wp_pure (hnone s₁ T V hd₁ rfl (.refl V)))
    fun f s₁ h0 ht hd₁ => ?_)
  refine wp_bind (filealloc_during hd₁ (fun s₂ _ hd₂ => ?_) fun g s₂ h0' ht' hd₂ => ?_)
  · exact wp_bind (filecloseFresh_during hd₂ h0 ht fun s₃ hd₃ =>
      wp_pure (hnone s₃ T V hd₃ rfl (.refl V)))
  have hne : g ≠ f := by
    rintro rfl
    rw [Tab.setFile_ftable_self] at h0'
    cases h0'
  rw [Tab.setFile_ftable_of_ne hne] at h0' ht'
  have hd₃ : During sb t s₂ ((T.setFile f { T.ftable f with ref := 1 }).setFile g
      { T.ftable g with ref := 1 }) V (.keeping b [f, g] []) := by
    rw [Tab.setFile_ftable_of_ne hne] at hd₂
    exact during_files_perm (h := .idle b) (k := []) hd₂ (List.Perm.swap _ _ _) (List.Perm.refl _)
  cases page with
  | none =>
    refine wp_bind (fileclose_during hb hd₃ (Nat.zero_le _) fun s₃ T₃ W₃ hd₃ hT₃ hcalm₃ => ?_)
    exact wp_bind (fileclose_during hb hd₃ (Nat.zero_le _) fun s₄ T₄ W₄ hd₄ hT₄ hcalm₄ =>
      wp_pure (hnone s₄ T₄ W₄ hd₄ (hT₄.2.trans hT₃.2) (hcalm₃.trans hcalm₄)))
  | some a =>
    refine pipeStore_bind (k := fun _ => pure (some (f, g))) hd₃ hne (hpage a rfl) ?_ ?_ ?_ ?_ fun s₃ T₃ hd₄ ha hp hf hg =>
      wp_pure (hsome s₃ T₃ f g hd₄ ha hp hf hg)
    · rw [Tab.setFile_ftable_of_ne hne.symm, Tab.setFile_ftable_self]
      simp
    · rw [Tab.setFile_ftable_self]
      simp
    · rw [Tab.setFile_ftable_of_ne hne.symm, Tab.setFile_ftable_self]
      exact ht
    · rw [Tab.setFile_ftable_self]
      exact ht'

/-- `sys_pipe`. -/
theorem sysPipe_during {page : Option PipeId} {ok : Bool} {Q : ℤ → FsSt → Prop}
    (hd : During sb t s T V (.idle b)) (hb : b.Ok sb) (hpage : ∀ a ∈ page, T.pipe a = none)
    (hQ : ∀ r s' T' W, During sb t s' T' W (.idle b) → T'.aux = T.aux → NameCalm V W → Q r s') :
    wp (store t) err (sysPipe p page ok) Q s := by
  refine wp_bind (pipealloc_during hd hb hpage
    (fun s₁ T₁ W hd₁ ha hcalm => wp_pure (hQ _ s₁ T₁ W hd₁ ha hcalm))
    fun s₁ T₁ f g hd₁ ha _ hf hg => ?_)
  have hclose : ∀ s' T', During sb t s' T' V (.keeping b [f, g] []) → T'.aux = T.aux →
      wp (store t) err (do fileclose f; fileclose g; return -1) Q s' := fun s' T' hd' ha' =>
    closeBoth_during hb hd' fun s'' T'' W hd'' haux hcalm => hQ _ s'' T'' W hd'' (haux.trans ha') hcalm
  refine wp_bind (fdalloc_during hd₁ (fun s₂ _ hd₂ => hclose s₂ T₁ hd₂ ha) fun fd0 s₂ _ hd₂ => ?_)
  have hfd0 : ((T₁.setOfile p fd0 (some f)).proc p).ofile fd0 = some f := Tab.setOfile_ofile_self
  refine wp_bind (fdalloc_during hd₂ (fun s₃ _ hd₃ => ?_) fun fd1 s₃ hnone₁ hd₃ => ?_)
  · exact wp_bind (settleOfile_during (h := .keeping b [f, g] []) hd₃ hfd0 fun s₄ hd₄ => hclose s₄ _ hd₄ ha)
  have hd₃' : During sb t s₃ ((T₁.setOfile p fd0 (some f)).setOfile p fd1 (some g)) V
    (.keeping b [f, g] [g, f]) := hd₃
  have hne : fd0 ≠ fd1 := by
    rintro rfl
    rw [hfd0] at hnone₁
    cases hnone₁
  show wp (store t) err (if ok = true then _ else _) Q s₃
  split
  · have hd₄ := during_files_perm (h := .idle b) (k := [g, f]) hd₃' (List.Perm.swap g f [])
      (List.Perm.refl [g, f])
    have hd₅ : During sb t s₃ ((T₁.setOfile p fd0 (some f)).setOfile p fd1 (some g)) V
      (.keeping b [f] [f]) := during_settle (h := .keeping b [f] [f]) (f := g) hd₄ hg
    exact wp_pure (hQ _ s₃ _ V (during_settle (h := .idle b) (f := f) hd₅ hf) ha (.refl V))
  · have hd₄ := during_files_perm (h := .idle b) (k := [g, f]) hd₃' (List.Perm.refl [f, g])
      (List.Perm.swap f g [])
    refine wp_bind (settleOfile_during (h := .keeping b [f, g] [g]) hd₄ ?_ fun s₄ hd₅ => ?_)
    · rw [Tab.setOfile_ofile_of_ne (x := (p, fd0)) fun e => hne (Prod.mk.inj e).2]
      exact hfd0
    · refine wp_bind (settleOfile_during (h := .keeping b [f, g] []) hd₅ ?_
        fun s₅ hd₆ => hclose s₅ _ hd₆ ha)
      rw [Tab.setOfile_ofile_of_ne (x := (p, fd1)) fun e => hne (Prod.mk.inj e).2.symm]
      exact Tab.setOfile_ofile_self

/-! ## `exec` -/

theorem loadseg_during {va offset sz k j : ℕ} {Q : Bool → FsSt → Prop} (hd : During sb t s T V h)
    (hx : (ip, i) ∈ h.locks) (hQ : ∀ r, Q r s) :
    wp (store t) err (loadseg ip va offset sz k j) Q s := by
  induction k generalizing j with
  | zero => exact wp_pure (hQ _)
  | succ k ih =>
    unfold loadseg
    split
    · refine wp_bind (readi_during hd hx fun r => ?_)
      split
      · exact wp_pure (hQ _)
      · exact ih
    · exact wp_pure (hQ _)

theorem loadSegments_during {vm : ℕ → Bool} {phoff : ℕ} {l : List ℕ} {Q : Bool → FsSt → Prop}
    (hd : During sb t s T V h) (hx : (ip, i) ∈ h.locks) (hQ : ∀ r, Q r s) :
    wp (store t) err (loadSegments ip vm phoff l) Q s := by
  induction l with
  | nil => exact wp_pure (hQ _)
  | cons j l ih =>
    refine wp_bind (readi_during hd hx fun r => ?_)
    split
    · exact wp_pure (hQ _)
    split
    · exact ih
    split
    · exact wp_pure (hQ _)
    split
    · exact wp_pure (hQ _)
    split
    · exact wp_pure (hQ _)
    refine wp_bind (loadseg_during hd hx fun ok => ?_)
    split
    · exact ih
    · exact wp_pure (hQ _)

theorem loadElf_during {pt : Bool} {vm : ℕ → Bool} {Q : Bool → FsSt → Prop}
    (hd : During sb t s T V h) (hx : (ip, i) ∈ h.locks) (hQ : ∀ r, Q r s) :
    wp (store t) err (loadElf ip pt vm) Q s := by
  refine wp_bind (readi_during hd hx fun r => ?_)
  split
  · exact wp_pure (hQ _)
  split
  · exact wp_pure (hQ _)
  split
  · exact wp_pure (hQ _)
  exact loadSegments_during hd hx hQ

/-- `sys_exec`. -/
theorem sysExec_during {path : Option Path} {pt : Bool} {vm : ℕ → Bool} {ret : ℤ}
    {Q : ℤ → FsSt → Prop} (hd : During sb t s T V (.idle b)) (hb : b.Ok sb)
    (hroom : err "iget: no inodes" ∨ T.busy + 2 < ninode)
    (hlive : err "ilock: no type" ∨ NoDangling V)
    (hQ : ∀ r s', During sb t s' T V (.idle b) → Q r s') :
    wp (store t) err (sysExec p path pt vm ret) Q s := by
  unfold sysExec
  split
  · exact wp_pure (hQ _ s hd)
  refine wp_bind (beginOp_during hd rfl fun s₁ hd₁ => ?_)
  refine wp_bind (wp_bind (namex_during hd₁ rfl rfl rfl (fun j hj => absurd hj List.not_mem_nil)
    (hroom.imp_right fun h => Nat.lt_of_succ_lt h) hlive (fun s₂ hd₂ => wp_pure ?_)
    fun ip i _ s₂ hd₂ hil _ => wp_pure ?_))
  · exact wp_bind (finish_during hd₂ hb (by decide) fun s₃ hd₃ => wp_pure (hQ _ s₃ hd₃))
  refine wp_bind (ilock_ref hd₂ List.mem_cons_self hil fun s₃ hd₃ => ?_)
  have hd₃' : During sb t s₃ T V (.hold b [(ip, i)] [(ip, i)] [] 0 ∅) := hd₃
  refine wp_bind (loadElf_during hd₃' List.mem_cons_self fun ok => ?_)
  exact iunlockputEnd_during hd₃' hb (by decide) (hQ _)

/-! ## `fork` and `exit` -/

/-- The loop of `kfork`. -/
theorem forkLoop_during {l : List (Fin nofile)} {Q : Unit → FsSt → Prop}
    (hd : During sb t s T V (.idle b)) (hl : ∀ fd ∈ l, (T.proc np).ofile fd = none) (hnd : l.Nodup)
    (hQ : ∀ s' T', During sb t s' T' V (.idle b) → T'.aux = T.aux →
      (∀ q, (T'.proc q).cwd = (T.proc q).cwd) → Q () s') :
    wp (store t) err (forkLoop p np l) Q s := by
  induction l generalizing s T with
  | nil => exact wp_pure (hQ s T hd rfl fun _ => rfl)
  | cons fd l ih =>
    obtain ⟨hfd, hnd⟩ := List.nodup_cons.1 hnd
    have hrest : ∀ x ∈ l, (T.proc np).ofile x = none := fun x hx => hl x (List.mem_cons_of_mem _ hx)
    refine wp_bind (gets_during hd fun m hc => ?_)
    have hm : (m.proc p).ofile fd = (T.proc p).ofile fd := by
      rw [← hc.tab]
      rfl
    rw [hm]
    cases hf : (T.proc p).ofile fd with
    | none => exact ih hd hrest hnd hQ
    | some f =>
      have hpos := Tab.fds_pos hf
      refine wp_bind (filedup_during hd ?_ fun s₁ hd₁ => ?_)
      · simp only [Hand.idle, List.count_nil]
        omega
      have hstored : ∀ s', During sb t s' ((T.setFile f { T.ftable f with
          ref := (T.ftable f).ref + 1 }).setOfile np fd (some f)) V (.idle b) →
          wp (store t) err (forkLoop p np l) Q s' := by
        intro s' hd'
        refine ih hd' (fun x hx => ?_) hnd fun s'' T'' hd'' ha hcwd => hQ s'' T'' hd'' ha fun q => ?_
        · rw [Tab.setOfile_ofile_of_ne (x := (np, x)) fun e => hfd (by rw [← (Prod.mk.inj e).2]; exact hx)]
          exact hrest x hx
        · rw [hcwd, Tab.setOfile_cwd]
          rfl
      refine wp_bind (modify_during _ (.idle b) hd₁ (fun _ => rfl) (fun _ => rfl)
        (fun m hm => by rw [← hm]; rfl) (fun I hs => slots_files (slots_setOfile hs) [] [])
        (fun hfl => ?_) ⟨rfl, rfl, rfl, rfl⟩ fun s' hd' _ => hstored s' hd')
      have hput := hfl.put (p := np) (f := f) (hl fd List.mem_cons_self)
      refine Files.settle (f := f) (hput.congr rfl rfl) ?_
      rw [Tab.setOfile_ftable, Tab.setFile_ftable_self]
      exact (ref_of_ofile hd.files hf).2

/-- What `kfork` does to files. -/
theorem forkFiles_during {Q : ℤ → FsSt → Prop} (hd : During sb t s T V (.idle b))
    (hcwd : (T.proc np).cwd = none) (hofile : ∀ fd, (T.proc np).ofile fd = none)
    (hQ : ∀ r s' T', During sb t s' T' V (.idle b) → T'.aux = T.aux → Q r s') :
    wp (store t) err (forkFiles p np) Q s := by
  refine wp_bind (forkLoop_during hd (fun fd _ => hofile fd) (List.nodup_finRange _)
    fun s₁ T₁ hd₁ ha hsame => ?_)
  refine wp_bind (idupCwd_during hd₁ rfl fun ip i s₂ _ ht hd₂ => ?_)
  have hstored : ∀ s', During sb t s' (T₁.setCwd np (some ip)) V (.idle b) →
      wp (store t) err (pure 0) Q s' := fun s' hd' => wp_pure (hQ _ s' _ hd' ha)
  refine wp_bind (modify_during _ (.idle b) hd₂ (fun _ => rfl) (fun _ => rfl)
    (fun m hm => by rw [← hm]; rfl) (fun I hs => slots_setCwd hs rfl ht ?_)
    (fun hf => files_setCwd (hf.congr rfl rfl)) ⟨rfl, rfl, rfl, rfl⟩ fun s' hd' _ => hstored s' hd')
  rw [hsame]
  exact hcwd

/-- The loop of `kexit`. -/
theorem exitLoop_during {l : List (Fin nofile)} {Q : Unit → FsSt → Prop}
    (hd : During sb t s T V (.idle b)) (hb : b.Ok sb)
    (hQ : ∀ s' T' W, During sb t s' T' W (.idle b) → T'.aux = T.aux →
      (∀ q, (T'.proc q).cwd = (T.proc q).cwd) → NameCalm V W → Q () s') :
    wp (store t) err (exitLoop p l) Q s := by
  induction l generalizing s T V with
  | nil => exact wp_pure (hQ s T V hd rfl (fun _ => rfl) (.refl V))
  | cons fd l ih =>
    refine wp_bind (gets_during hd fun m hc => ?_)
    have hm : (m.proc p).ofile fd = (T.proc p).ofile fd := by
      rw [← hc.tab]
      rfl
    rw [hm]
    cases hf : (T.proc p).ofile fd with
    | none => exact ih hd hQ
    | some f =>
      have hd₁ : During sb t s T V (.keeping b [f] [f]) := during_unsettle hd f
      have hpos := Tab.fds_pos hf
      refine wp_bind (fileclose_during hb hd₁ ?_ fun s₂ T₂ W hd₂ hT hcalm => ?_)
      · rw [List.count_cons_self, List.count_nil]
        exact hpos
      have hf₂ : (T₂.proc p).ofile fd = some f := by
        rw [hT.1]
        exact hf
      refine wp_bind (settleOfile_during (h := .idle b) hd₂ hf₂ fun s₃ hd₃ => ?_)
      refine ih hd₃ fun s₄ T₄ X hd₄ ha hcwd hcalm' =>
        hQ s₄ T₄ X hd₄ (ha.trans hT.2) (fun q => ?_) (hcalm.trans hcalm')
      rw [hcwd, Tab.setOfile_cwd, hT.1]

/-- What `kexit` does to files. -/
theorem exitFiles_during {Q : ℤ → FsSt → Prop} (hd : During sb t s T V (.idle b)) (hb : b.Ok sb)
    (hcwd : (T.proc p).cwd = some jp)
    (hQ : ∀ r s' T' W, During sb t s' T' W (.idle b) → T'.aux = T.aux → NameCalm V W → Q r s') :
    wp (store t) err (exitFiles p) Q s := by
  refine wp_bind (exitLoop_during hd hb fun s₁ T₁ W hd₁ ha hsame hcalm => ?_)
  have hcwd₁ : (T₁.proc p).cwd = some jp := by
    rw [hsame]
    exact hcwd
  refine wp_bind (beginOp_during hd₁ rfl fun s₂ hd₂ => ?_)
  refine wp_bind (iputCwd_during hd₂ rfl rfl rfl rfl hcwd₁ fun s₃ X I hd₃ hI _ hcalm' => ?_)
  refine wp_bind (endOp_fits hd₃ rfl hb ?_ fun s₄ hd₄ => ?_)
  · simp only [Hand.idle, Hand.pin, maxopblocks, Finset.card_empty] at *
    omega
  have hstored : ∀ s', During sb t s' (T₁.setCwd p none) X (.idle b) →
      wp (store t) err (pure 0) Q s' := fun s' hd' =>
    wp_pure (hQ _ s' _ X hd' ha (hcalm.trans hcalm'))
  refine wp_bind (modify_during _ (.idle b) hd₄ (fun _ => rfl) (fun _ => rfl)
    (fun m hm => by rw [← hm]; rfl) (fun J hs => ?_) (fun hf => files_setCwd (hf.congr rfl rfl))
    ⟨rfl, rfl, rfl, rfl⟩ fun s' hd' _ => hstored s' hd')
  refine (slots_clearCwd (h := (Hand.idle b).pin jp) hs hcwd₁).reorder (List.Perm.refl _)
    (List.Perm.refl _) (fun j _ h0 => ?_) rfl rfl
  exact absurd h0 (by simp [Hand.count, Hand.pin, Hand.idle])

end Fs

end Xv6
