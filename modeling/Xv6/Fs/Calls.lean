import Xv6.Fs.Names

/-!
# Rules for system calls

A rule for each call of `sysfile.c` and for what `fork`, `exit` and `exec` do to files, from one
state between calls to another. The calls that make or remove no names leave directories and link
counts alone (`NameCalm`).
-/

namespace Xv6

open Conc Eff Vol Count

namespace Fs

variable {α : Type} {err : String → Prop} {sb : Superblock} {t : Tid} {s : FsSt} {T : Tab}
  {V : Vol} {h : Hand} {b : Bound} {p np : ProcId} {ip jp : InodeId} {i : ℕ} {f : FileId}
  {fd : Fin nofile}

/-! ## Stores of references -/

/-- `fileclose` of a file that `filealloc` has just found. -/
theorem filecloseFresh_during {Q : Unit → FsSt → Prop}
    (hd : During sb t s (T.setFile f { T.ftable f with ref := 1 }) V { h with files := f :: h.files })
    (h0 : (T.ftable f).ref = 0) (ht : (T.ftable f).type = .none)
    (hQ : ∀ s', During sb t s' T V h → Q () s') : wp (store t) err (fileclose f) Q s := by
  obtain ⟨m, hs, hc, hp⟩ := hd
  have hfile : m.ftable f = { T.ftable f with ref := 1 } := by
    have : m.tab.ftable f = _ := congrFun (congrArg Tab.ftable hc.tab) f
    rwa [Tab.setFile_ftable_self] at this
  have hback : (T.setFile f { T.ftable f with ref := 1 }).setFile f
      { T.ftable f with ref := 0, type := .none } = T := by
    have hself : { T.ftable f with ref := 0, type := .none } = T.ftable f := by
      rw [← h0, ← ht]
    rw [hself]
    unfold Tab.setFile
    congr 1
    funext g
    by_cases hg : g = f
    · rw [if_pos hg, hg]
    · rw [if_neg hg]
      exact if_neg hg
  have hsec : filecloseSection f t m =
      .ok (some { T.ftable f with ref := 1 })
        (m.setFile f { T.ftable f with ref := 0, type := .none }) := by
    unfold filecloseSection
    rw [hfile]
    rfl
  have htab : (m.setFile f { T.ftable f with ref := 0, type := .none }).tab = T := by
    refine Eq.trans ?_ hback
    rw [← hc.tab]
    rfl
  refine wp_bind (section_core hs hc hp (fun a m' he => ?_) fun msg he => ?_)
  · rw [hsec] at he
    obtain ⟨rfl, rfl⟩ := Outcome.ok.inj he
    refine ⟨rfl, h, ?_, ?_, ⟨rfl, rfl, rfl, rfl⟩, fun s' hd' _ => ?_⟩
    · have hsl := slots_closeFile (f := f) (v := { T.ftable f with ref := 0, type := .none }) hc.slots
        (by simp) (by rw [Tab.setFile_ftable_self]; simp [ht])
      rw [hback] at hsl
      rw [htab]
      exact slots_files hsl h.files h.fowed
    · have hcl := Files.close (f := f) (h := h) hc.files (by rw [Tab.setFile_ftable_self])
        (by rw [Tab.setFile_ftable_self]; simp [ht])
      rw [Tab.setFile_ftable_self] at hcl
      rw [htab, ← hback]
      exact hcl
    · rw [htab] at hd'
      simp only [ht]
      exact wp_pure (hQ s' hd')
  · rw [hsec] at he
    cases he

/-- A file that no descriptor counts for yet comes to refer to an inode. -/
theorem slots_refer {I : InodeId → Inode} {v : File} (hs : Slots sb t T I V (h.take ip i))
    (howed : h.owed = []) (hti : (V.ino i).type ≠ 0) (ht : (T.ftable f).type = .none)
    (hv : v.Refers ip) (hw : v.writable = true → (V.ino i).type ≠ tDir) :
    Slots sb t (T.setFile f v) I V h := by
  have hnot : ∀ j, ¬ (T.ftable f).Refers j := fun j hj => by
    have := hj.1
    rw [ht] at this
    simp at this
  have hi : (I ip).inum = i := hs.name (ip, i) (.inl List.mem_cons_self)
  refine hs.give hti ?_ (fun j hj => ?_) fun g j hg hwr => ?_
  · have := Tab.users_setFile (T := T) (f := f) (v := v) (i := ip)
    rwa [if_neg (hnot ip), if_pos hv] at this
  · have := Tab.users_setFile (T := T) (f := f) (v := v) (i := j)
    rwa [if_neg (hnot j), if_neg fun hr => hj (hr.2.symm.trans hv.2)] at this
  · by_cases hgf : g = f
    · rw [hgf, Tab.setFile_ftable_self] at hg hwr
      rw [← hg.2, hv.2, hi]
      exact .inr (hw hwr)
    · rw [Tab.setFile_ftable_of_ne hgf] at hg hwr
      by_cases hj : j = ip
      · right
        refine hs.writable g j hg hwr ?_
        show h.owed.count j < T.users j
        rw [howed]
        exact Tab.users_pos_of_file hg
      · exact .inl ⟨hg, hwr, hj⟩

/-- A process comes to have a current directory. -/
theorem slots_setCwd {I : InodeId → Inode} (hs : Slots sb t T I V (h.take ip i))
    (howed : h.owed = []) (hti : (V.ino i).type ≠ 0) (hcwd : (T.proc p).cwd = none) :
    Slots sb t (T.setCwd p (some ip)) I V h := by
  refine hs.give hti ?_ (fun j hj => ?_) fun g j hg hwr => ?_
  · have := Tab.users_setCwd (T := T) (p := p) (c := some ip) (i := ip)
    rwa [hcwd, if_neg (by simp), if_pos rfl] at this
  · have := Tab.users_setCwd (T := T) (p := p) (c := some ip) (i := j)
    rwa [hcwd, if_neg (by simp), if_neg fun e => hj (Option.some.inj e).symm] at this
  · by_cases hj : j = ip
    · right
      refine hs.writable g j hg hwr ?_
      show h.owed.count j < T.users j
      rw [howed]
      exact Tab.users_pos_of_file hg
    · exact .inl ⟨hg, hwr, hj⟩

/-- A current directory whose reference is dropped goes away. -/
theorem slots_clearCwd {I : InodeId → Inode} (hs : Slots sb t T I V { h with owed := jp :: h.owed })
    (hcwd : (T.proc p).cwd = some jp) : Slots sb t (T.setCwd p none) I V h := by
  refine hs.settle ?_ (fun j hj => ?_) fun _ _ hg hw => ⟨hg, hw⟩
  · have := Tab.users_setCwd (T := T) (p := p) (c := none) (i := jp)
    rwa [if_pos hcwd, if_neg (by simp)] at this
  · have := Tab.users_setCwd (T := T) (p := p) (c := none) (i := j)
    rwa [hcwd, if_neg fun e => hj (Option.some.inj e).symm, if_neg (by simp)] at this

theorem files_setCwd {c : Option InodeId} (hf : Files T h) : Files (T.setCwd p c) h :=
  ⟨fun g => by rw [Tab.fds_setCwd]; exact hf.ref g, hf.closed,
    fun g hg => hf.typed g (by rwa [Tab.fds_setCwd] at hg), hf.ends, hf.page⟩

theorem setCwd_setCwd (c c' : Option InodeId) : (T.setCwd p c).setCwd p c' = T.setCwd p c' := by
  unfold Tab.setCwd Tab.setProc
  congr 1
  funext q
  by_cases hq : q = p
  · simp [hq]
  · simp [hq]

/-- `iput(p->cwd)`. -/
theorem iputCwd_during {Q : Unit → FsSt → Prop} (hd : During sb t s T V h) (hop : h.op = true)
    (howed : h.owed = []) (hlocks : h.locks = []) (hfresh : h.fresh = ∅)
    (hcwd : (T.proc p).cwd = some jp)
    (hQ : ∀ s' W I, During sb t s' T W { h.pin jp with owed := [jp], inos := I } →
      I.card ≤ h.inos.card + 1 → (∀ x ∈ h.refs, W.ino x.2 = V.ino x.2) → NameCalm V W → Q () s') :
    wp (store t) err (iputCwd p) Q s := by
  refine wp_bind (gets_during hd fun m hc => ?_)
  have hm : (m.proc p).cwd = some jp := by
    rw [← hc.tab] at hcwd
    exact hcwd
  rw [hm]
  obtain ⟨m, hs, hc, hp⟩ := hd
  have hlt : h.owed.count jp < T.users jp := by
    rw [howed]
    exact Tab.users_pos_of_cwd hcwd
  have hsl := hc.slots.borrow hlt
  rw [howed] at hsl
  have hd₁ : During sb t s T V
      (Hand.take { h.pin jp with owed := [jp] } jp (m.itable jp).inum) :=
    ⟨m, hs, ⟨hc.super, hc.tab, hc.ok, hc.ents, hsl, hc.files.congr rfl rfl⟩, hp.wrote, hp.spent, hp.ops⟩
  refine iput_during hd₁ hop ?_ (by rw [show ({ h.pin jp with owed := [jp] } : Hand).fresh = h.fresh from rfl, hfresh]; exact Finset.notMem_empty _)
    (fun s' hd' => hQ s' V h.inos hd' (Nat.le_succ _) (fun _ _ => rfl) (.refl V))
    fun _ hu s' W hd' hino hnode ht hn => hQ s' W _ hd' (Finset.card_insert_le _ _) (fun x hx => hino _ ?_)
      (.of_freed hnode ht hn)
  · rintro ⟨x, hx, -⟩
    rw [show ({ h.pin jp with owed := [jp] } : Hand).locks = h.locks from rfl, hlocks] at hx
    exact absurd hx List.not_mem_nil
  · -- the inodes that the call refers to are not freed
    intro e
    have hxj : x.1 = jp := hc.slots.eq_of_inum (hlt.trans_le (Nat.le_add_right _ _))
      (hc.slots.used_of_mem hx) ((hc.slots.name x (.inl hx)).trans e)
    have hcount := Hand.count_pos hx
    rw [hxj] at hcount
    have hpos := Tab.users_pos_of_cwd hcwd
    refine hu ?_
    unfold Hand.Used
    show [jp].count jp < T.users jp + h.count jp
    rw [List.count_cons_self, List.count_nil]
    omega

/-! ## `sys_open` -/

/-- A file table without a free slot, or a process without a free descriptor. -/
def TablesFull (T : Tab) (p : ProcId) : Prop :=
  (∀ f, (T.ftable f).ref ≠ 0) ∨ ∀ fd, (T.proc p).ofile fd ≠ none

/-- The end of an operation that has dropped what it held. -/
theorem iunlockputEnd_during {n : ℕ} {I : Finset ℕ} {r : ℤ} {Q : ℤ → FsSt → Prop}
    (hd : During sb t s T V (.hold b [(ip, i)] [(ip, i)] [] n I)) (hb : b.Ok sb)
    (hfit : n + I.card + 1 ≤ maxopblocks) (hQ : ∀ s', During sb t s' T V (.idle b) → Q r s') :
    wp (store t) err (do iunlockput ip; endOp; return r) Q s := by
  have hd' : During sb t s T V (((Hand.hold b [] [] [] n I).take ip i).lock ip i) := hd
  exact wp_bind (iunlockput_keep hd' rfl (Finset.notMem_empty _)
    (fun hp => absurd hp List.not_mem_nil) fun s₁ hd₁ =>
      wp_bind (finish_during hd₁ hb hfit fun s₂ hd₂ => wp_pure (hQ s₂ hd₂)))

/-- `sys_open` from `f->type = ..` on. -/
theorem openStore_during {n : ℕ} {I : Finset ℕ} {v : File → File} {c : Prop} [Decidable c] {r : ℤ}
    {Q : ℤ → FsSt → Prop}
    (hd : During sb t s T V
      { Hand.hold b [(ip, i)] [(ip, i)] [] n I with files := [f], fowed := [f] })
    (hb : b.Ok sb) (hfit : n + (insert i I).card + 1 ≤ maxopblocks)
    (hr : (T.ftable f).ref ≠ 0) (ht : (T.ftable f).type = .none)
    (hv : (v (T.ftable f)).Refers ip) (href : (v (T.ftable f)).ref = (T.ftable f).ref)
    (hw : (v (T.ftable f)).writable = true → (V.ino i).type ≠ tDir) (hc : c → (V.ino i).type = tFile)
    (hQ : ∀ s' T' W, During sb t s' T' W (.idle b) → T'.aux = T.aux → NameCalm V W → Q r s') :
    wp (store t) err (do
      modify fun m => m.setFile f (v (m.ftable f))
      if c then itrunc ip
      iunlock ip
      endOp
      return r) Q s := by
  have hti : (V.ino i).type ≠ 0 := hd.type_ne (x := (ip, i)) List.mem_cons_self
  have hvp : (v (T.ftable f)).type ≠ .pipe ∧ (v (T.ftable f)).type ≠ .none := by
    rcases hv.1 with h | h <;> rw [h] <;> decide
  have hrest : ∀ s' J W, During sb t s' (T.setFile f (v (T.ftable f))) W
        (.hold b [] [(ip, i)] [] n J) → J ⊆ insert i I → NameCalm V W →
      wp (store t) err (do iunlock ip; endOp; return r) Q s' := by
    intro s' J W hd' hJ hcalm
    have hd'' : During sb t s' (T.setFile f (v (T.ftable f))) W
      ((Hand.hold b [] [] [] n J).lock ip i) := hd'
    refine wp_bind (iunlock_during hd'' fun s₁ hd₁ _ => ?_)
    refine wp_bind (finish_during hd₁ hb ?_ fun s₂ hd₂ => wp_pure (hQ s₂ _ W hd₂ rfl hcalm))
    exact Nat.le_trans (by have := Finset.card_le_card hJ; omega) hfit
  have hstored : ∀ s', During sb t s' (T.setFile f (v (T.ftable f))) V
        (.hold b [] [(ip, i)] [] n I) → wp (store t) err (do
      if c then itrunc ip
      iunlock ip
      endOp
      return r) Q s' := by
    intro s' hd'
    split
    · rename_i hcond
      have htf := hc hcond
      refine wp_bind (itrunc_during hd' rfl List.mem_cons_self fun s₁ W hd₁ hino hnode hself => ?_)
      refine hrest s₁ _ W hd₁ (Finset.Subset.refl _) (.of_self hnode ?_)
      have hw : W.node i = { V.node i with size := 0, data := fun _ => 0 } := by
        rw [node_of_ne (by rw [hself]; exact hti), node_of_ne hti, hself]
        simp
      rw [hw]
      exact .wrote (by rw [node_type]; exact hti) (by rw [node_type, htf]; decide) _ _
    · exact hrest s' I V hd' (Finset.subset_insert _ _) (.refl V)
  refine wp_bind (modify_during (T.setFile f (v (T.ftable f))) (.hold b [] [(ip, i)] [] n I) hd
    (fun _ => rfl) (fun _ => rfl) (fun m hm => by rw [← hm]; rfl) (fun J hs => ?_) (fun hf => ?_) ⟨rfl, rfl, rfl, rfl⟩ fun s' hd' _ => hstored s' hd')
  · exact slots_refer (slots_files hs [] []) rfl hti ht hv hw
  · exact Files.settle (f := f) ((hf.refer href hr (by rw [ht]; decide) hvp.1 hvp.2).congr rfl rfl)
      (by rw [Tab.setFile_ftable_self]; exact hvp.2)

/-- `sys_open` with the inode locked. -/
theorem openFile_during {n omode : ℕ} {I : Finset ℕ} {Q : ℤ → FsSt → Prop}
    (hd : During sb t s T V (.hold b [(ip, i)] [(ip, i)] [] n I)) (hb : b.Ok sb)
    (hfit : n + (insert i I).card + 1 ≤ maxopblocks) (hdir : (V.ino i).type = tDir → omode = 0)
    (hfail : ∀ s', During sb t s' T V (.idle b) → (V.ino i).type = tDevice ∨ TablesFull T p →
      Q (-1) s')
    (hdone : ∀ s' T' W (fd : Fin nofile), During sb t s' T' W (.idle b) → T'.aux = T.aux →
      NameCalm V W → Q fd s') :
    wp (store t) err (openFile p ip omode) Q s := by
  have hfit' : n + I.card + 1 ≤ maxopblocks :=
    Nat.le_trans (by have := Finset.card_le_card (Finset.subset_insert i I); omega) hfit
  have hend : ∀ s', During sb t s' T V (.hold b [(ip, i)] [(ip, i)] [] n I) →
      (V.ino i).type = tDevice ∨ TablesFull T p →
      wp (store t) err (do iunlockput ip; endOp; return -1) Q s' := fun s' hd' hbad =>
    iunlockputEnd_during hd' hb hfit' fun s'' hd'' => hfail s'' hd'' hbad
  refine wp_bind (dinode_during hd List.mem_cons_self ?_)
  split
  · rename_i hdev
    exact hend s hd (.inl hdev.1)
  refine wp_bind (filealloc_during hd (fun s₁ hfull hd₁ => hend s₁ hd₁ (.inr (.inl hfull)))
    fun f s₁ h0 ht hd₁ => ?_)
  refine wp_bind (fdalloc_during hd₁ (fun s₂ hfull hd₂ => ?_) fun fd s₂ hnone hd₂ => ?_)
  · exact wp_bind (filecloseFresh_during hd₂ h0 ht fun s₃ hd₃ => hend s₃ hd₃ (.inr (.inr hfull)))
  · refine openStore_during (v := fun w => { w with
        type := if (V.ino i).type = tDevice then .device else .inode
        major := if (V.ino i).type = tDevice then (V.ino i).major else w.major
        off := if (V.ino i).type = tDevice then w.off else 0
        ip := ip
        readable := !omode.testBit 0
        writable := omode.testBit 0 || omode.testBit 1 }) hd₂ hb hfit ?_ ?_ ?_ ?_ ?_
      (fun h => h.2) fun s' T' W hd' ha hcalm => hdone s' T' W fd hd' ha hcalm
    · simp
    · simpa using ht
    · refine ⟨?_, rfl⟩
      simp only
      split
      · exact .inr rfl
      · exact .inl rfl
    · rfl
    · intro hw h
      rw [hdir h] at hw
      simp at hw

/-- `sys_open`: it fails, or opens a file, or makes one and opens it, or makes one and fails. -/
theorem sysOpen_during {path : Option Path} {omode : ℕ} {Q : ℤ → FsSt → Prop}
    (hd : During sb t s T V (.idle b)) (hb : b.Ok sb)
    (hroom : err "iget: no inodes" ∨ T.busy + 2 < ninode)
    (hlive : err "ilock: no type" ∨ NoDangling V)
    (hfail : ∀ s' a W, During sb t s' (T.withAux a) W (.idle b) → (∀ j, W.node j = V.node j) →
      AuxCalm V T.aux a → Q (-1) s')
    (hopen : ∀ s' T' W (fd : Fin nofile), During sb t s' T' W (.idle b) → T'.aux = T.aux → NameCalm V W →
      Q fd s')
    (hlate : ∀ s' a U W d l i name, During sb t s' (T.withAux a) W (.idle b) → TablesFull T p →
      omode.testBit 9 = true → Created sb V T.aux U a d l i name tFile 0 0 → NameCalm U W → Q (-1) s')
    (hcreate : ∀ s' T' U W (fd : Fin nofile) d l i name, During sb t s' T' W (.idle b) →
      Created sb V T.aux U T'.aux d l i name tFile 0 0 → NameCalm U W → Q fd s') :
    wp (store t) err (sysOpen p path omode) Q s := by
  unfold sysOpen
  split
  · exact wp_pure (hfail s T.aux V hd (fun _ => rfl) (.refl V _))
  rename_i path
  have hsame : ∀ s', During sb t s' T V (.idle b) → Q (-1) s' := fun s' hd' =>
    hfail s' T.aux V hd' (fun _ => rfl) (.refl V _)
  refine wp_bind (beginOp_during hd rfl fun s₁ hd₁ => ?_)
  split
  · rename_i homode
    refine wp_bind (create_during hd₁ (by decide) (by decide) hroom hlive
      (fun s₂ a W I hd₂ hI hnode ha => ?_) (fun ip i s₂ hd₂ _ ht => ?_)
      fun ip i s₂ a U W d l name I hd₂ hI hcr hcalm => ?_)
    · refine wp_bind (finish_during hd₂ hb ?_ fun s₃ hd₃ => wp_pure (hfail s₃ a W hd₃ hnode ha))
      simp only [maxopblocks]
      omega
    · refine openFile_during hd₂ hb (by simp [maxopblocks]) (fun h => ?_)
        (fun s₃ hd₃ _ => hsame s₃ hd₃) hopen
      rw [h] at ht
      exact absurd ht (by decide)
    · have ht : (W.ino i).type = tFile := by
        have hchild := hcr.child
        rw [if_neg (by decide)] at hchild
        have hne := hd₂.type_ne (x := (ip, i)) List.mem_cons_self
        have hkind := hcalm i
        rw [hchild] at hkind
        generalize hW : W.node i = n at hkind
        have htype : n.type = (W.ino i).type := by rw [← hW, node_type]
        rw [← htype] at hne ⊢
        cases hkind with
        | same => rfl
        | freed _ => exact absurd rfl hne
        | wrote _ _ _ _ => rfl
      refine openFile_during hd₂ hb ?_ (fun h => ?_) (fun s₃ hd₃ hfull => ?_)
        fun s₃ T' X fd hd₃ haux hcalm' => ?_
      · have := Finset.card_insert_le i I
        simp only [maxopblocks]
        omega
      · rw [ht] at h
        exact absurd h (by decide)
      · refine hlate s₃ a U W d l i name hd₃ (hfull.resolve_left ?_) homode hcr hcalm
        rw [ht]
        decide
      · refine hcreate s₃ T' U X fd d l i name hd₃ ?_ (hcalm.trans hcalm')
        rw [haux]
        exact hcr
  · refine wp_bind (wp_bind (namex_during hd₁ rfl rfl rfl (fun j hj => absurd hj List.not_mem_nil)
      (hroom.imp_right fun h => Nat.lt_of_succ_lt h) hlive (fun s₂ hd₂ => wp_pure ?_)
      fun ip i _ s₂ hd₂ hil _ => wp_pure ?_))
    · exact wp_bind (finish_during hd₂ hb (by decide) fun s₃ hd₃ => wp_pure (hsame s₃ hd₃))
    · refine wp_bind (ilock_ref hd₂ List.mem_cons_self hil fun s₃ hd₃ => ?_)
      have hd₃' : During sb t s₃ T V (.hold b [(ip, i)] [(ip, i)] [] 0 ∅) := hd₃
      refine wp_bind (dinode_during hd₃' List.mem_cons_self ?_)
      split
      · exact iunlockputEnd_during hd₃' hb (by decide) fun s₄ hd₄ => hsame s₄ hd₄
      · rename_i hno
        refine openFile_during hd₃' hb (by simp [maxopblocks]) (fun h => ?_)
          (fun s₄ hd₄ _ => hsame s₄ hd₄) hopen
        exact not_not.1 fun h0 => hno ⟨h, h0⟩

/-! ## `sys_mkdir`, `sys_mknod` and `sys_chdir` -/

/-- `sys_mkdir` and `sys_mknod`. -/
theorem makeNode_during {path : Option Path} {type major minor : ℕ} {Q : ℤ → FsSt → Prop}
    (hd : During sb t s T V (.idle b)) (hb : b.Ok sb) (htype : type ≠ 0) (htlt : type < 2 ^ 16)
    (hfile : type ≠ tFile) (hroom : err "iget: no inodes" ∨ T.busy + 2 < ninode)
    (hlive : err "ilock: no type" ∨ NoDangling V)
    (hfail : ∀ s' a W, During sb t s' (T.withAux a) W (.idle b) → (∀ j, W.node j = V.node j) →
      AuxCalm V T.aux a → Q (-1) s')
    (hdone : ∀ s' a U W d l i name, During sb t s' (T.withAux a) W (.idle b) →
      Created sb V T.aux U a d l i name type major minor → NameCalm U W → Q 0 s') :
    wp (store t) err (makeNode p path type major minor) Q s := by
  refine wp_bind (beginOp_during hd rfl fun s₁ hd₁ => ?_)
  split
  · exact wp_bind (finish_during hd₁ hb (by decide) fun s₂ hd₂ =>
      wp_pure (hfail s₂ T.aux V hd₂ (fun _ => rfl) (.refl V _)))
  · refine wp_bind (create_during hd₁ htype htlt hroom hlive
      (fun s₂ a W I hd₂ hI hnode ha => ?_) (fun _ _ _ _ h => absurd h hfile)
      fun ip i s₂ a U W d l name I hd₂ hI hcr hcalm => ?_)
    · refine wp_bind (finish_during hd₂ hb ?_ fun s₃ hd₃ => wp_pure (hfail s₃ a W hd₃ hnode ha))
      simp only [maxopblocks]
      omega
    · refine iunlockputEnd_during hd₂ hb ?_ fun s₃ hd₃ => hdone s₃ a U W d l i name hd₃ hcr hcalm
      simp only [maxopblocks]
      omega

/-- `sys_chdir`. -/
theorem sysChdir_during {path : Option Path} {Q : ℤ → FsSt → Prop}
    (hd : During sb t s T V (.idle b)) (hb : b.Ok sb) (hcwd : (T.proc p).cwd = some jp)
    (hroom : err "iget: no inodes" ∨ T.busy + 2 < ninode)
    (hlive : err "ilock: no type" ∨ NoDangling V)
    (hfail : ∀ s', During sb t s' T V (.idle b) → Q (-1) s')
    (hdone : ∀ s' T' W, During sb t s' T' W (.idle b) → T'.aux = T.aux → NameCalm V W → Q 0 s') :
    wp (store t) err (sysChdir p path) Q s := by
  refine wp_bind (beginOp_during hd rfl fun s₁ hd₁ => ?_)
  split
  · exact wp_bind (finish_during hd₁ hb (by decide) fun s₂ hd₂ => wp_pure (hfail s₂ hd₂))
  refine wp_bind (wp_bind (namex_during hd₁ rfl rfl rfl (fun j hj => absurd hj List.not_mem_nil)
    (hroom.imp_right fun h => Nat.lt_of_succ_lt h) hlive (fun s₂ hd₂ => wp_pure ?_)
    fun ip i _ s₂ hd₂ hil _ => wp_pure ?_))
  · exact wp_bind (finish_during hd₂ hb (by decide) fun s₃ hd₃ => wp_pure (hfail s₃ hd₃))
  refine wp_bind (ilock_ref hd₂ List.mem_cons_self hil fun s₃ hd₃ => ?_)
  refine wp_bind (dinode_during hd₃ List.mem_cons_self ?_)
  split
  · have hd₃' : During sb t s₃ T V (.hold b [(ip, i)] [(ip, i)] [] 0 ∅) := hd₃
    exact iunlockputEnd_during hd₃' hb (by decide) hfail
  rename_i hdir
  rw [not_not] at hdir
  have hd₃' : During sb t s₃ T V ((Hand.hold b [(ip, i)] [] [] 0 ∅).lock ip i) := hd₃
  refine wp_bind (iunlock_during hd₃' fun s₄ hd₄ _ => ?_)
  refine wp_bind (iputCwd_during hd₄ rfl rfl rfl rfl hcwd fun s₅ W I hd₅ hI hino hcalm => ?_)
  have htW : (W.ino i).type ≠ 0 := by
    rw [hino (ip, i) List.mem_cons_self, hdir]
    decide
  refine wp_bind (endOp_fits hd₅ rfl hb ?_ fun s₆ hd₆ => ?_)
  · simp only [Hand.hold, Hand.pin, maxopblocks, Finset.card_empty] at *
    omega
  have hstored : ∀ s', During sb t s' (T.setCwd p (some ip)) W (.idle b) →
      wp (store t) err (pure 0) Q s' := fun s' hd' => wp_pure (hdone s' _ W hd' rfl hcalm)
  refine wp_bind (modify_during (T.setCwd p (some ip)) (.idle b) hd₆ (fun _ => rfl) (fun _ => rfl)
    (fun m hm => by rw [← hm]; rfl) (fun J hs => ?_) (fun hf => files_setCwd (hf.congr rfl rfl)) ⟨rfl, rfl, rfl, rfl⟩
    fun s' hd' _ => hstored s' hd')
  -- the old reference is dropped, and the new one given
  have hs₁ := slots_clearCwd (h := ((Hand.idle b).pin jp).take ip i) hs hcwd
  have hs₂ := slots_setCwd (h := (Hand.idle b).pin jp) hs₁ rfl htW Tab.setCwd_cwd_self
  rw [setCwd_setCwd] at hs₂
  refine hs₂.reorder (List.Perm.refl _) (List.Perm.refl _) (fun j _ h0 => ?_) rfl rfl
  exact absurd h0 (by simp [Hand.count, Hand.pin, Hand.idle])

end Fs

end Xv6
