import Xv6.Fs.Handles

/-!
# Rules for operations and open files

Rules for `begin_op` and `end_op`, and for the functions of `file.c` and the stores of `sysfile.c`
that move references to files. Between two operations a call holds references to files at most
(`Hand.keeping`).
-/

namespace Xv6

open Conc Eff Vol Count

/-! ## What a call leaves alone -/

/-- A node after a call that makes and removes no names: it is as before, or freed because it had
no links, or a file with other contents. -/
inductive Node.Calm (n : Node) : Node → Prop
  | same : Calm n n
  | freed (h : n.nlink = 0) : Calm n .free
  | wrote (h₀ : n.type ≠ 0) (h : n.type ≠ tDir) (size : ℕ) (data : ℕ → UInt8) :
      Calm n { n with size := size, data := data }

theorem Node.Calm.trans {n₁ n₂ n₃ : Node} (h₁ : n₁.Calm n₂) (h₂ : n₂.Calm n₃) : n₁.Calm n₃ := by
  cases h₁ with
  | same => exact h₂
  | freed h =>
    cases h₂ with
    | same => exact .freed h
    | freed _ => exact .freed h
    | wrote h₀ _ _ _ => exact absurd rfl h₀
  | wrote h₀ h size data =>
    cases h₂ with
    | same => exact .wrote h₀ h size data
    | freed h' => exact .freed h'
    | wrote _ _ size' data' => exact .wrote h₀ h size' data'

/-- No names are made or removed. -/
def NameCalm (V W : Vol) : Prop := ∀ j, (V.node j).Calm (W.node j)

namespace NameCalm

variable {U V W : Vol} {i : ℕ}

theorem of_node (h : ∀ j, W.node j = V.node j) : NameCalm V W := fun j => by
  rw [h j]
  exact .same

theorem refl (V : Vol) : NameCalm V V := .of_node fun _ => rfl

theorem trans (h₁ : NameCalm U V) (h₂ : NameCalm V W) : NameCalm U W := fun j => (h₁ j).trans (h₂ j)

/-- One node changes. -/
theorem of_self (hne : ∀ j, j ≠ i → W.node j = V.node j) (h : (V.node i).Calm (W.node i)) :
    NameCalm V W := fun j => by
  by_cases hj : j = i
  · rw [hj]
    exact h
  · rw [hne j hj]
    exact .same

/-- An inode without links is freed. -/
theorem of_freed (hne : ∀ j, j ≠ i → W.node j = V.node j) (ht : (W.ino i).type = 0)
    (hn : (V.ino i).nlink = 0) : NameCalm V W := by
  refine of_self hne ?_
  rw [node_of_eq ht]
  refine .freed ?_
  unfold node
  split
  · rfl
  · exact hn

end NameCalm

/-- The bound is one for a free map of one block. -/
def Bound.Ok (b : Bound) (sb : Superblock) : Prop := b.when → sb.size ≤ bpb ∧ maxopblocks ≤ b.peak

/-- The call holds references to files, and owes some. -/
def Hand.keeping (b : Bound) (files fowed : List FileId) : Hand :=
  ⟨[], [], [], ∅, [], files, fowed, 0, ∅, false, b⟩

/-- The call is in an operation. -/
def Hand.working (b : Bound) (files fowed : List FileId) : Hand :=
  ⟨[], [], [], ∅, [], files, fowed, 0, ∅, true, b⟩

namespace Fs

variable {α : Type} {err : String → Prop} {sb : Superblock} {t : Tid} {s : FsSt} {T T' : Tab}
  {V : Vol} {h h' : Hand} {b : Bound} {fs k : List FileId} {f : FileId} {p : ProcId}
  {fd : Fin nofile} {ip : InodeId} {i : ℕ}

/-! ## Operations -/

theorem During.opened (hd : During sb t s T V h) (hop : h.op = false) :
    During sb t s.opened T V { h with op := true, data := 0, inos := ∅ } := by
  obtain ⟨m, hs, hc, hp⟩ := hd
  refine ⟨m, ⟨hs.mem, hs.vol, hs.layout, hs.tight⟩, ⟨hc.super, hc.tab, hc.ok, hc.ents,
    hc.slots.reorder (List.Perm.refl _) (List.Perm.refl _) (fun _ hj _ => hj) rfl rfl,
    hc.files.congr rfl rfl⟩, ⟨∅, Nat.le_refl _, fun b hb => absurd hb (Finset.notMem_empty _)⟩,
    hp.spent, ?_⟩
  show s.outstanding + 1 = 1
  rw [hp.ops, hop]
  rfl

theorem beginOp_during {Q : Unit → FsSt → Prop} (hd : During sb t s T V h) (hop : h.op = false)
    (hQ : ∀ s', During sb t s' T V { h with op := true, data := 0, inos := ∅ } → Q () s') :
    wp (store t) err beginOp Q s :=
  beginOp_wp (hQ _ (During.opened hd hop))

theorem endOp_during {Q : Unit → FsSt → Prop} (hd : During sb t s T V h) (hop : h.op = true)
    (hcard : h.bound.when → s.wrote.card ≤ h.bound.peak)
    (hQ : ∀ s', During sb t s' T V { h with op := false, data := 0, inos := ∅ } → Q () s') :
    wp (store t) err endOp Q s := by
  obtain ⟨m, hs, hc, hp⟩ := hd
  refine endOp_wp (hQ _ ⟨m, ⟨hs.mem, hs.vol, hs.layout, hs.tight⟩, ⟨hc.super, hc.tab, hc.ok,
    hc.ents, hc.slots.reorder (List.Perm.refl _) (List.Perm.refl _) (fun _ hj _ => hj) rfl rfl,
    hc.files.congr rfl rfl⟩, ⟨∅, Nat.le_refl _, fun b hb => absurd hb (Finset.notMem_empty _)⟩,
    fun hw => max_le (hp.spent hw) (hcard hw), ?_⟩)
  show s.outstanding - 1 = 0
  rw [hp.ops, hop]
  rfl

/-- `end_op` of an operation that has logged few blocks. -/
theorem endOp_fits {Q : Unit → FsSt → Prop} (hd : During sb t s T V h) (hop : h.op = true)
    (hb : h.bound.Ok sb) (hfit : h.data + h.inos.card + 1 ≤ maxopblocks)
    (hQ : ∀ s', During sb t s' T V { h with op := false, data := 0, inos := ∅ } → Q () s') :
    wp (store t) err endOp Q s := by
  refine endOp_during hd hop (fun hw => ?_) hQ
  obtain ⟨m, -, -, hp⟩ := hd
  obtain ⟨hsize, hpeak⟩ := hb hw
  exact ((hp.card_le hsize).trans hfit).trans hpeak

/-! ## Stores to the tables -/

/-- A store to the tables other than the inode table. -/
theorem modify_during {g : Mem → Mem} {Q : Unit → FsSt → Prop} (T' : Tab) (h' : Hand)
    (hd : During sb t s T V h)
    (hsb : ∀ m, (g m).sb = m.sb) (hit : ∀ m, (g m).itable = m.itable)
    (htab : ∀ m, m.tab = T → (g m).tab = T')
    (hslots : ∀ I, Slots sb t T I V h → Slots sb t T' I V h') (hfiles : Files T h → Files T' h')
    (hlog : h.LogEq h') (hQ : ∀ s', During sb t s' T' V h' → Logs sb s s' ∅ ∅ ∅ → Q () s') :
    wp (store t) err (modify g) Q s := by
  obtain ⟨m, hs, hc, hp⟩ := hd
  refine section_core hs hc hp (fun a m' he => ?_) fun msg he => by cases he
  obtain ⟨-, rfl⟩ := Outcome.ok.inj he
  rw [htab m hc.tab, hit]
  exact ⟨hsb m, h', hslots _ hc.slots, hfiles hc.files, hlog, hQ⟩

/-- A file that refers to what it referred to before. -/
theorem slots_setFile {I : InodeId → Inode} {v : File} (hs : Slots sb t T I V h)
    (ht : v.type = (T.ftable f).type) (hip : v.ip = (T.ftable f).ip)
    (hw : v.writable = (T.ftable f).writable) : Slots sb t (T.setFile f v) I V h := by
  have hiff : ∀ j, v.Refers j ↔ (T.ftable f).Refers j := fun j => by
    unfold File.Refers
    rw [ht, hip]
  refine hs.retab (fun j => ?_) fun g j hg hwr => ?_
  · have := Tab.users_setFile (T := T) (f := f) (v := v) (i := j)
    simp only [hiff] at this
    omega
  · by_cases hgf : g = f
    · rw [hgf, Tab.setFile_ftable_self] at hg hwr
      rw [hgf]
      exact ⟨(hiff j).1 hg, hw ▸ hwr⟩
    · rw [Tab.setFile_ftable_of_ne hgf] at hg hwr
      exact ⟨hg, hwr⟩

theorem slots_setRef {I : InodeId → Inode} (hs : Slots sb t T I V h) (f : FileId) (n : ℕ) :
    Slots sb t (T.setFile f { T.ftable f with ref := n }) I V h :=
  slots_setFile hs rfl rfl rfl

/-- The account of references to files does not touch the inode table. -/
theorem slots_files {I : InodeId → Inode} (hs : Slots sb t T I V h) (l k : List FileId) :
    Slots sb t T I V { h with files := l, fowed := k } :=
  hs.reorder (List.Perm.refl _) (List.Perm.refl _) (fun _ hj _ => hj) rfl rfl

theorem slots_setOfile {I : InodeId → Inode} {o : Option FileId} (hs : Slots sb t T I V h) :
    Slots sb t (T.setOfile p fd o) I V h :=
  hs.retab (fun _ => Tab.users_setOfile) fun _ _ hf hw => ⟨hf, hw⟩

/-- A reference of the call is that of a descriptor. -/
theorem during_settle (hd : During sb t s T V { h with files := f :: h.files, fowed := f :: h.fowed })
    (ht : (T.ftable f).type ≠ .none) : During sb t s T V h := by
  obtain ⟨m, hs, hc, hp⟩ := hd
  exact ⟨m, hs, ⟨hc.super, hc.tab, hc.ok, hc.ents, slots_files hc.slots h.files h.fowed,
    hc.files.settle ht⟩, hp.wrote, hp.spent, hp.ops⟩

theorem during_unsettle (hd : During sb t s T V h) (f : FileId) :
    During sb t s T V { h with files := f :: h.files, fowed := f :: h.fowed } := by
  obtain ⟨m, hs, hc, hp⟩ := hd
  exact ⟨m, hs, ⟨hc.super, hc.tab, hc.ok, hc.ents, slots_files hc.slots _ _,
    hc.files.unsettle f⟩, hp.wrote, hp.spent, hp.ops⟩

/-! ## Files -/

/-- `filealloc`. -/
theorem filealloc_during {Q : Option FileId → FsSt → Prop} (hd : During sb t s T V h)
    (hnone : ∀ s', (∀ f, (T.ftable f).ref ≠ 0) → During sb t s' T V h → Q none s')
    (hsome : ∀ f s', (T.ftable f).ref = 0 → (T.ftable f).type = .none →
      During sb t s' (T.setFile f { T.ftable f with ref := 1 }) V { h with files := f :: h.files } →
      Q (some f) s') : wp (store t) err filealloc Q s := by
  obtain ⟨m, hs, hc, hp⟩ := hd
  obtain rfl := hc.tab
  refine section_core hs hc hp (fun a m' he => ?_) fun msg he => ?_
  · split at he
    · rename_i f hf
      have h0 := List.find?_some hf
      rw [decide_eq_true_iff] at h0
      obtain ⟨rfl, rfl⟩ := Outcome.ok.inj he
      exact ⟨rfl, _, slots_files (slots_setRef hc.slots f 1) (f :: h.files) h.fowed,
        hc.files.alloc h0, ⟨rfl, rfl, rfl, rfl⟩,
        fun s' hd' _ => hsome f s' h0 (hc.files.closed f h0) hd'⟩
    · rename_i hfull
      obtain ⟨rfl, rfl⟩ := Outcome.ok.inj he
      refine ⟨rfl, h, hc.slots, hc.files, ⟨rfl, rfl, rfl, rfl⟩, fun s' hd' _ => hnone s' (fun f hf => ?_) hd'⟩
      exact List.find?_eq_none.1 hfull f (List.mem_finRange f) (decide_eq_true hf)
  · split at he <;> cases he

/-- `filedup` of a file that a descriptor points to. -/
theorem filedup_during {Q : Unit → FsSt → Prop} (hd : During sb t s T V h)
    (hf : h.fowed.count f < T.fds f + h.files.count f)
    (hQ : ∀ s', During sb t s' (T.setFile f { T.ftable f with ref := (T.ftable f).ref + 1 }) V
      { h with files := f :: h.files } → Q () s') : wp (store t) err (filedup f) Q s := by
  obtain ⟨m, hs, hc, hp⟩ := hd
  obtain rfl := hc.tab
  have href := hc.files.ref f
  have hpos : ¬ (m.ftable f).ref < 1 := by
    have : (m.tab.ftable f).ref = (m.ftable f).ref := rfl
    omega
  refine section_core hs hc hp (fun a m' he => ?_) fun msg he => ?_
  · rw [if_neg hpos] at he
    obtain ⟨-, rfl⟩ := Outcome.ok.inj he
    exact ⟨rfl, _, slots_files (slots_setRef hc.slots f _) (f :: h.files) h.fowed,
      hc.files.dup, ⟨rfl, rfl, rfl, rfl⟩, fun s' hd' _ => hQ s' hd'⟩
  · rw [if_neg hpos] at he
    cases he

/-- `fdalloc`: the reference is owed. -/
theorem fdalloc_during {Q : Option (Fin nofile) → FsSt → Prop} (hd : During sb t s T V h)
    (hnone : ∀ s', (∀ fd, (T.proc p).ofile fd ≠ none) → During sb t s' T V h → Q none s')
    (hsome : ∀ fd s', (T.proc p).ofile fd = none →
      During sb t s' (T.setOfile p fd (some f)) V { h with fowed := f :: h.fowed } → Q (some fd) s') :
    wp (store t) err (fdalloc p f) Q s := by
  obtain ⟨m, hs, hc, hp⟩ := hd
  obtain rfl := hc.tab
  refine section_core hs hc hp (fun a m' he => ?_) fun msg he => ?_
  · split at he
    · rename_i fd hfd
      have h0 := List.find?_some hfd
      rw [Option.isNone_iff_eq_none] at h0
      obtain ⟨rfl, rfl⟩ := Outcome.ok.inj he
      exact ⟨rfl, _, slots_files (slots_setOfile hc.slots) h.files (f :: h.fowed), hc.files.put h0,
        ⟨rfl, rfl, rfl, rfl⟩, fun s' hd' _ => hsome fd s' h0 hd'⟩
    · rename_i hfull
      obtain ⟨rfl, rfl⟩ := Outcome.ok.inj he
      refine ⟨rfl, h, hc.slots, hc.files, ⟨rfl, rfl, rfl, rfl⟩, fun s' hd' _ => hnone s' (fun fd hfd => ?_) hd'⟩
      exact List.find?_eq_none.1 hfull fd (List.mem_finRange fd) (Option.isNone_iff_eq_none.2 hfd)
  · split at he <;> cases he

/-- A descriptor is cleared; its reference goes to the call. -/
theorem clearOfile_during {Q : Unit → FsSt → Prop} (hd : During sb t s T V h)
    (hfd : (T.proc p).ofile fd = some f)
    (hQ : ∀ s', During sb t s' (T.setOfile p fd none) V { h with files := f :: h.files } → Q () s') :
    wp (store t) err (modify fun m => m.setOfile p fd none) Q s := by
  refine modify_during _ _ hd (fun _ => rfl) (fun _ => rfl) (fun m hm => by subst hm; rfl)
    (fun I hs => slots_files (slots_setOfile hs) (f :: h.files) h.fowed) (fun hf => hf.remove hfd)
    ⟨rfl, rfl, rfl, rfl⟩ fun s' hd' _ => hQ s' hd'

/-- A descriptor whose reference is dropped is cleared. -/
theorem settleOfile_during {Q : Unit → FsSt → Prop}
    (hd : During sb t s T V { h with fowed := f :: h.fowed }) (hfd : (T.proc p).ofile fd = some f)
    (hQ : ∀ s', During sb t s' (T.setOfile p fd none) V h → Q () s') :
    wp (store t) err (modify fun m => m.setOfile p fd none) Q s := by
  refine modify_during _ _ hd (fun _ => rfl) (fun _ => rfl) (fun m hm => by subst hm; rfl)
    (fun I hs => slots_files (slots_setOfile hs) h.files h.fowed) (fun hf => hf.removeOwed hfd)
    ⟨rfl, rfl, rfl, rfl⟩ fun s' hd' _ => hQ s' hd'

/-- A file that refers to no inode, before and after. -/
theorem slots_closeFile {I : InodeId → Inode} {v : File} (hs : Slots sb t T I V h)
    (hv : ¬ (v.type = .inode ∨ v.type = .device)) (ht : ¬ ((T.ftable f).type = .inode ∨ (T.ftable f).type = .device)) :
    Slots sb t (T.setFile f v) I V h := by
  have hv' : ∀ j, ¬ v.Refers j := fun j hj => hv hj.1
  refine hs.retab (fun j => ?_) fun g j hg hwr => ?_
  · have := Tab.users_setFile (T := T) (f := f) (v := v) (i := j)
    rw [if_neg (hv' j), if_neg fun hr => ht hr.1] at this
    omega
  · by_cases hgf : g = f
    · rw [hgf, Tab.setFile_ftable_self] at hg
      exact absurd hg (hv' j)
    · rw [Tab.setFile_ftable_of_ne hgf] at hg hwr
      exact ⟨hg, hwr⟩

/-- The reference of a file that is closed goes to the call. -/
theorem slots_takeFile {I : InodeId → Inode} {v : File} (hs : Slots sb t T I V h)
    (howed : h.owed = []) (hv : v.type = .none) (hf : (T.ftable f).Refers ip) :
    Slots sb t (T.setFile f v) I V ((h.pin ip).take ip (I ip).inum) := by
  have hv' : ∀ j, ¬ v.Refers j := fun j hj => by
    have := hj.1
    rw [hv] at this
    simp at this
  refine hs.receive ?_ ?_ (fun j hj => ?_) fun g j hg hwr => ?_
  · rw [howed]
    exact Tab.users_pos_of_file hf
  · have := Tab.users_setFile (T := T) (f := f) (v := v) (i := ip)
    rw [if_neg (hv' ip), if_pos hf] at this
    exact this
  · have := Tab.users_setFile (T := T) (f := f) (v := v) (i := j)
    rw [if_neg (hv' j), if_neg fun hr => hj (hr.2.symm.trans hf.2)] at this
    exact this
  · by_cases hgf : g = f
    · rw [hgf, Tab.setFile_ftable_self] at hg
      exact absurd hg (hv' j)
    · rw [Tab.setFile_ftable_of_ne hgf] at hg hwr
      exact ⟨hg, hwr⟩

/-- `iput` of the last reference that a call holds, with the operation around it. -/
theorem iputOp_during {Q : Unit → FsSt → Prop} (hb : b.Ok sb)
    (hd : During sb t s T V (((Hand.keeping b fs k).pin ip).take ip i))
    (hQ : ∀ s' W, During sb t s' T W (.keeping b fs k) → NameCalm V W → Q () s') :
    wp (store t) err (do beginOp; iput ip; endOp) Q s := by
  have hend : ∀ s' W (I : Finset ℕ), During sb t s' T W
      { (Hand.working b fs k).pin ip with inos := I } → I.card ≤ 1 → NameCalm V W →
      wp (store t) err endOp Q s' := fun s' W I hd' hI hcalm => by
    refine endOp_fits hd' rfl hb ?_ fun s'' hd'' => hQ s'' W ?_ hcalm
    · simp only [Hand.pin, Hand.working, maxopblocks]
      omega
    · refine hd''.weaken (List.Perm.refl _) (List.Perm.refl _) (fun j _ h0 => ?_) (Nat.le_refl _)
        (Finset.Subset.refl _) rfl
      exact absurd h0 (by simp [Hand.count, Hand.pin, Hand.working])
  refine wp_bind (beginOp_during hd rfl fun s₁ hd₁ => ?_)
  have hd₁' : During sb t s₁ T V (((Hand.working b fs k).pin ip).take ip i) := hd₁
  refine wp_bind (iput_during hd₁' rfl ?_ (Finset.notMem_empty _)
    (fun s₂ hd₂ => hend s₂ V ∅ hd₂ (Nat.zero_le _) (.refl V))
    fun _ _ s₂ W hd₂ _ hnode ht hn => hend s₂ W _ hd₂ ?_ (.of_freed hnode ht hn))
  · rintro ⟨x, hx, -⟩
    exact absurd hx (List.not_mem_nil)
  · simp [Hand.pin, Hand.working]

/-- `fileclose`. -/
theorem fileclose_during {Q : Unit → FsSt → Prop} (hb : b.Ok sb)
    (hd : During sb t s T V (.keeping b (f :: fs) k)) (hk : k.count f ≤ T.fds f)
    (hQ : ∀ s' T' W, During sb t s' T' W (.keeping b fs k) → T'.proc = T.proc ∧ T'.aux = T.aux →
      NameCalm V W → Q () s') : wp (store t) err (fileclose f) Q s := by
  obtain ⟨m, hs, hc, hp⟩ := hd
  obtain rfl := hc.super
  obtain rfl := hc.tab
  have href : (m.ftable f).ref + k.count f = m.tab.fds f + (f :: fs).count f := hc.files.ref f
  rw [List.count_cons_self] at href
  have hfiles : Files m.tab { Hand.keeping b fs k with files := f :: (Hand.keeping b fs k).files } :=
    hc.files.congr rfl rfl
  refine wp_bind (mem_wp hs (fun a m' he => ?_) fun msg he => ?_)
  · unfold filecloseSection at he
    rw [if_neg (by omega)] at he
    by_cases hlast : 0 < (m.ftable f).ref - 1
    · rw [if_pos hlast] at he
      obtain ⟨rfl, rfl⟩ := Outcome.ok.inj he
      refine ⟨rfl, fun s₁ h₁ hlog₁ => wp_pure (hQ s₁ _ V ⟨_, h₁, ⟨rfl, rfl, hc.ok, hc.ents,
        slots_files (slots_setRef hc.slots f _) fs k, hfiles.drop (by show 1 < (m.ftable f).ref; omega)⟩,
        hp.keep hlog₁ rfl rfl rfl rfl⟩ ⟨rfl, rfl⟩ (.refl V))⟩
    · rw [if_neg hlast] at he
      obtain ⟨rfl, rfl⟩ := Outcome.ok.inj he
      refine ⟨rfl, fun s₁ h₁ hlog₁ => ?_⟩
      have h1 : (m.tab.ftable f).ref = 1 := by
        show (m.ftable f).ref = 1
        omega
      simp only
      by_cases hpipe : (m.ftable f).type = .pipe
      · -- the file was an end of a pipe
        rw [if_pos hpipe]
        have hend : m.tab.EndOpen ((m.ftable f).pipe, (m.ftable f).writable) :=
          hc.files.ends.used_of_holds (if_pos hpipe)
        obtain ⟨w, hw, -⟩ := hend
        refine modify_wp h₁ ?_ fun s₂ h₂ hlog₂ => ?_
        · split <;> rfl
        have hw' : (m.setFile f { m.ftable f with ref := 0, type := .none }).pipe
          (m.ftable f).pipe = some w := hw
        simp only [hw'] at h₂
        refine hQ s₂ _ V ⟨_, h₂, ⟨rfl, rfl, hc.ok, hc.ents, ?_,
          hfiles.closePipe h1 hpipe hw rfl⟩, (hp.keep hlog₁ rfl rfl rfl rfl).keep hlog₂ rfl rfl rfl rfl⟩
          ⟨rfl, rfl⟩ (.refl V)
        refine (slots_files (slots_closeFile (f := f) hc.slots ?_ ?_) fs k).retab (fun _ => rfl)
          fun _ _ hf hw => ⟨hf, hw⟩
        · simp
        · show ¬ ((m.ftable f).type = .inode ∨ (m.ftable f).type = .device)
          rw [hpipe]
          decide
      · rw [if_neg hpipe]
        have hfiles' := hfiles.close h1 hpipe
        by_cases hino : (m.ftable f).type = .inode ∨ (m.ftable f).type = .device
        · rw [if_pos hino]
          refine iputOp_during (i := (m.itable (m.ftable f).ip).inum) hb ⟨_, h₁, ⟨rfl, rfl, hc.ok, hc.ents, ?_, hfiles'.congr rfl rfl⟩,
            hp.keep hlog₁ rfl rfl rfl rfl⟩ fun s₂ W hd₂ hcalm => hQ s₂ _ W hd₂ ⟨rfl, rfl⟩ hcalm
          exact slots_takeFile (slots_files hc.slots fs k) rfl rfl ⟨hino, rfl⟩
        · rw [if_neg hino]
          exact wp_pure (hQ s₁ _ V ⟨_, h₁, ⟨rfl, rfl, hc.ok, hc.ents,
            slots_files (slots_closeFile (f := f) hc.slots (by simp) hino) fs k, hfiles'⟩,
            hp.keep hlog₁ rfl rfl rfl rfl⟩ ⟨rfl, rfl⟩ (.refl V))
  · unfold filecloseSection at he
    rw [if_neg (by omega)] at he
    split at he <;> cases he

end Fs

end Xv6
