import Xv6.Sys.Load
import Xv6.Sys.Stack

/-!
# What `kexec` does

`kexec` from a state between calls and an address space (`kexec_wp`): either it fails, and then no
page, no inode and no field of the process has changed; or the process has the image of the file with
its arguments in place of the old one (`Replaced`).
-/

namespace Xv6.Vm

open Conc Eff Transfer

variable {K : Layout} {E : Halt → Prop} {err : String → Prop} {w : World} {me : ProcId} {s₀ s s' : Phys}
  {R : Multiset ℕ} {g : Img} {argv : List (List UInt8)} {path : Fs.Path} {old root oldsz tf sp ent : ℕ}

/-- One address space has taken the place of another, and the program starts at `ent`. -/
structure Replaced (K : Layout) (old oldsz tf root : ℕ) (g : Img) (sp ent : ℕ) (s s' : Phys) : Prop where
  shape : Shape K root tf g s'.mem
  moves : s.Moves s' (tables s.mem old + frames s.mem old oldsz tf)
    (tables s'.mem root + frames s'.mem root g.sz tf)
  epc : s'.mem.ld (tf + tfEpc) = ent
  r1 : s'.mem.ld (tf + tfR1) = sp
  r13 : s'.mem.ld (tf + tfR13) = sp
  rest : ∀ i < pgsize, (i < tfEpc ∨ tfEpc + 4 ≤ i) → (i < tfR1 ∨ tfR1 + 4 ≤ i) →
    (i < tfR13 ∨ tfR13 + 4 ≤ i) → s'.mem (tf + i) = s.mem (tf + i)

/-! ## The commit -/

/-- The stores to the trap frame. -/
def startFrame (m : ByteMem) (tf sp ent : ℕ) : ByteMem :=
  ((m.st (tf + tfR1) sp).st (tf + tfEpc) ent).st (tf + tfR13) sp

theorem start_of_ne {m : ByteMem} {a : ℕ} (htf : tf % pgsize = 0) (ha : pgrounddown a ≠ tf) :
    startFrame m tf sp ent a = m a := by
  unfold startFrame
  rw [ByteMem.st_of_not_mem, ByteMem.st_of_not_mem, ByteMem.st_of_not_mem]
  all_goals
    simp only [pgrounddown, pgsize, tfR1, tfEpc, tfR13] at *
    omega

theorem start_regs (m : ByteMem) (tf : ℕ) (hsp : sp < 2 ^ 32) (hent : ent < 2 ^ 32) :
    (startFrame m tf sp ent).ld (tf + tfEpc) = ent ∧ (startFrame m tf sp ent).ld (tf + tfR1) = sp ∧
      (startFrame m tf sp ent).ld (tf + tfR13) = sp := by
  unfold startFrame
  refine ⟨?_, ?_, ByteMem.ld_st hsp⟩
  · rw [ByteMem.ld_st_of_disjoint (by simp only [tfEpc, tfR13]; omega), ByteMem.ld_st hent]
  · rw [ByteMem.ld_st_of_disjoint (by simp only [tfR1, tfR13]; omega),
      ByteMem.ld_st_of_disjoint (by simp only [tfR1, tfEpc]; omega), ByteMem.ld_st hsp]

theorem start_rest {m : ByteMem} {i : ℕ} (h₁ : i < tfEpc ∨ tfEpc + 4 ≤ i) (h₂ : i < tfR1 ∨ tfR1 + 4 ≤ i)
    (h₃ : i < tfR13 ∨ tfR13 + 4 ≤ i) : startFrame m tf sp ent (tf + i) = m (tf + i) := by
  unfold startFrame
  rw [ByteMem.st_of_not_mem (by omega), ByteMem.st_of_not_mem (by omega),
    ByteMem.st_of_not_mem (by omega)]

/-- The old address space goes, after the stores to the trap frame. -/
theorem replaced_ends (hsp : Space K s₀.mem old oldsz tf)
    (hg : Good K s₀ (tables s₀.mem old + (frames s₀.mem old oldsz tf + R)))
    (hb : Building K root tf g s₀ s) (hlt : sp < 2 ^ 32) (hent : ent < 2 ^ 32) :
    Det.Ends E (procFreepagetable K old oldsz) { s with mem := startFrame s.mem tf sp ent }
      fun _ s' => Replaced K old oldsz tf root g sp ent s₀ s' := by
  -- the pages of the new image, of the old one, and the trap frame
  obtain ⟨N, hN⟩ : ∃ N, N = tables s.mem root + users s.mem root 0 (pgs g.sz) := ⟨_, rfl⟩
  obtain ⟨O, hO⟩ : ∃ O, O = tables s₀.mem old + users s₀.mem old 0 (pgs oldsz) := ⟨_, rfl⟩
  have hm := hb.moves
  rw [← hN] at hm
  have hO' : tables s₀.mem old + frames s₀.mem old oldsz tf = O + {tf} := by
    rw [hO, frames, add_assoc]
  have hg₀ : Good K s₀ (0 + (tables s₀.mem old + (frames s₀.mem old oldsz tf + R))) :=
    hg.cast (zero_add _).symm
  obtain ⟨hsp₁, htab₁, hfr₁, -, -⟩ := hsp.moved hg₀ hm
  have hg₁ : Good K s (O + (N + ({tf} + R))) := by
    refine (hg₀.moves hm).cast ?_
    rw [← add_assoc (tables s₀.mem old), hO']
    abel
  have htf : K.Frame tf := hg₁.frame tf (.inr (by simp))
  have hne : ∀ a, pgrounddown a ∈ O + N → pgrounddown a ≠ tf := by
    rintro a ha rfl
    have hn := (hg₁.cast (add_assoc _ _ _).symm).held_nodup
    exact Multiset.disjoint_left.1 (Multiset.nodup_add.1 hn).2.2 ha (by simp)
  have hstart : ∀ a, pgrounddown a ∈ O + N → startFrame s.mem tf sp ent a = s.mem a := fun a ha =>
    start_of_ne htf.aligned (hne a ha)
  -- the old table in the state after the stores
  have htabO : ∀ a, pgrounddown a ∈ tables s.mem old → startFrame s.mem tf sp ent a = s.mem a :=
    fun a ha => hstart a (Multiset.mem_add.2 (.inl (by
      rw [hO, ← htab₁]
      exact Multiset.mem_add.2 (.inl ha))))
  have halO : ∀ p ∈ tables s.mem old, p % pgsize = 0 := fun p hp => (hg₁.frame p (.inr (by
    rw [hO, ← htab₁]
    exact Multiset.mem_add.2 (.inl (Multiset.mem_add.2 (.inl hp)))))).aligned
  have hsp₂ : Space K (startFrame s.mem tf sp ent) old oldsz tf := hsp₁.congr halO htabO
  have htab₂ : tables (startFrame s.mem tf sp ent) old = tables s₀.mem old :=
    (tables_congr halO htabO).trans htab₁
  have hus₂ : users (startFrame s.mem tf sp ent) old 0 (pgs oldsz) = users s₀.mem old 0 (pgs oldsz) := by
    have hfr := (hsp₁.frames_congr halO htabO).trans hfr₁
    unfold frames at hfr
    exact add_right_cancel hfr
  have hg₂ : Good K { s with mem := startFrame s.mem tf sp ent } (O + (N + ({tf} + R))) :=
    hg₁.congr rfl
  have hfree := procFreepagetable_ends (E := E) (s := { s with mem := startFrame s.mem tf sp ent })
    (R := N + ({tf} + R)) hsp.size (by
      simp only
      rw [htab₂, hus₂, ← add_assoc, ← hO]
      exact hg₂) hsp₂.table hsp₂.only
  simp only at hfree
  rw [htab₂, hus₂, ← hO] at hfree
  refine .mono hfree fun _ s' hm' => ?_
  have hkeep : ∀ a, pgrounddown a ∈ N + ({tf} + R) → s'.mem a = startFrame s.mem tf sp ent a :=
    fun a ha => hm'.keeps hg₂.nodup ha
  have hnew : ∀ a, pgrounddown a ∈ N → s'.mem a = s.mem a := fun a ha =>
    (hkeep a (Multiset.mem_add.2 (.inl ha))).trans (hstart a (Multiset.mem_add.2 (.inr ha)))
  have hpage : ∀ i < pgsize, s'.mem (tf + i) = startFrame s.mem tf sp ent (tf + i) := fun i hi =>
    hkeep _ (by rw [pgrounddown_add htf.aligned hi]; simp)
  have hld : ∀ i, i + 4 ≤ pgsize →
      s'.mem.ld (tf + i) = (startFrame s.mem tf sp ent).ld (tf + i) := fun i hi =>
    ByteMem.ld_congr fun j hj => by
      rw [add_assoc]
      exact hpage (i + j) (by omega)
  have halN : ∀ p ∈ tables s.mem root, p % pgsize = 0 := fun p hp => (hg₁.frame p (.inr (by
    rw [hN]
    simp [hp]))).aligned
  have hnewT : ∀ a, pgrounddown a ∈ tables s.mem root → s'.mem a = s.mem a := fun a ha =>
    hnew a (by rw [hN]; exact Multiset.mem_add.2 (.inl ha))
  refine ⟨hb.toShape.congr halN fun a ha => hnew a (by rw [hN]; exact ha), ?_, ?_, ?_, ?_, ?_⟩
  · have hfr' : tables s'.mem root + frames s'.mem root g.sz tf = N + {tf} := by
      rw [tables_congr halN hnewT, hb.space.frames_congr halN hnewT, hN, frames, add_assoc]
    have hw : s.Moves { s with mem := startFrame s.mem tf sp ent } {tf} {tf} :=
      moves_of_write fun a ha => start_of_ne htf.aligned fun e => ha (by rw [e]; simp)
    rw [hO', hfr']
    have hm₁ := (hm.frame (O + {tf})).cast (zero_add _) rfl
    have hm₂ := (hw.frame (O + N)).cast (B := N + (O + {tf})) (by abel) rfl
    have hm₃ := (hm'.frame (N + {tf})).cast (B := {tf} + (O + N)) (by abel) (zero_add _)
    exact (hm₁.trans hm₂).trans hm₃
  · rw [hld _ (by decide)]
    exact (start_regs s.mem tf hlt hent).1
  · rw [hld _ (by decide)]
    exact (start_regs s.mem tf hlt hent).2.1
  · rw [hld _ (by decide)]
    exact (start_regs s.mem tf hlt hent).2.2
  · intro i hi hi₁ hi₂ hi₃
    rw [hpage i hi, start_rest hi₁ hi₂ hi₃]
    exact hm.keeps hg₀.nodup (by
      rw [pgrounddown_add htf.aligned hi]
      simp [frames])

theorem Good.apart_frame (hg : Good K s (tables s.mem old + (frames s.mem old oldsz tf + R))) :
    Good K s ({tf} + (tables s.mem old + users s.mem old 0 (pgs oldsz) + R)) := by
  refine hg.cast ?_
  unfold frames
  abel

/-- The process after `exec`. -/
def Pcb.exec (p : Pcb) (path : Fs.Path) (root sz : ℕ) : Pcb :=
  { p with name := (lastName path path).take 15, pagetable := some root, sz := sz }

section Commit

variable {m : Mach} (hpt : (m.procs me).pagetable = some old) (htf : (m.procs me).trapframe = some tf)
  (hsp : Space K s₀.mem old (m.procs me).sz tf)
  (hg : Good K s₀ (tables s₀.mem old + (frames s₀.mem old (m.procs me).sz tf + R)))
  (hb : Building K root tf g s₀ m.phys)

include hpt htf hsp hg hb

theorem execCommit_ends {Q : Unit → Mach → Prop} (hlt : sp < 2 ^ 32) (hent : ent < 2 ^ 32)
    (hQ : ∀ ph, Replaced K old (m.procs me).sz tf root g sp ent s₀ ph →
      Q () (m.put ph me ((m.procs me).exec path root g.sz))) :
    Det.Ends E (execCommit K me path root g.sz sp ent) m Q := by
  unfold execCommit
  refine .bind (.of_eq rfl ?_)
  simp only [htf, hpt, Option.getD_some]
  refine .bind (onPhys_ends (.of_eq rfl (.bind (setPcb_ends (.bind (setPcb_put_ends (.bind
    (setPcb_put_ends (.bind (onPhys_put_ends (.of_eq rfl (.bind (onPhys_put_ends (.of_eq rfl ?_))))))))))))))
  exact onPhys_put_ends (.mono (replaced_ends hsp hg hb hlt hent) fun _ ph h => hQ ph h)

/-- `kexec` from the release of the inode on. -/
theorem execTail_ends {Q : ℤ → Mach → Prop} (hlen : ∀ arg ∈ argv, arg.length < pgsize)
    (hcount : argv.length < maxarg) (hent : ent < 2 ^ 32)
    (hfail : ∀ ph, ((∃ ph', uvmalloc K root (pgsize * pgs g.sz) g.withStack.sz pteW m.phys =
      .ok (0, ph')) ∨ ¬ ArgsFit g.withStack.sz argv) → s₀.Moves ph 0 0 → Q (-1) { m with phys := ph })
    (hok : ∀ ph, ArgsFit g.withStack.sz argv → Replaced K old (m.procs me).sz tf root
      (g.withStack.withArgs argv) (blockSp g.withStack.sz argv) ent s₀ ph →
      Q argv.length (m.put ph me ((m.procs me).exec path root g.withStack.sz))) :
    Det.Ends E (execTail K me path argv root g.sz ent) m Q := by
  have hg₀ := hg.apart_frame
  unfold execTail
  refine .bind (.of_eq rfl ?_)
  refine .bind (onPhys_ends (hb.buildStack hg₀ hlen hcount (fun ph hfit hph => ?_) fun g' ph hno hph => ?_))
  · have hsz := hph.space.size
    have hle : blockSp g.withStack.sz argv ≤ g.withStack.sz := by
      have h₁ := argPush_le (argSp g.withStack.sz argv) (4 * (argv.length + 1))
      have h₂ : argSp g.withStack.sz argv ≤ g.withStack.sz := argSp_le
      unfold blockSp
      omega
    have hfin : (g.withStack.withArgs argv).sz = g.withStack.sz := Img.withStrings_sz
    simp only
    rw [← hfin]
    refine .bind (execCommit_ends (m := { m with phys := ph }) hpt htf hsp hg hph ?_ hent fun ph' hr => .pure ?_)
    · rw [hfin] at hsz ⊢
      simp only [trapframe, trampoline, pgsize] at hsz
      omega
    · rw [hfin] at hr ⊢
      exact hok ph' hfit hr
  · exact .bind (onPhys_ends (.mono (hph.free hg₀) fun _ ph' hm => .pure (hfail ph' hno hm)))

end Commit

/-! ## `kexec` -/

/-- `path` names inode number `i`: what `namei` finds in `kexec`. -/
def Names (me : ProcId) (path : Fs.Path) (fs : FsSt) (i : ℕ) : Prop :=
  ∃ ip fs₁ fs₂, Exec (store me) Fs.beginOp fs (.ok () fs₁) ∧
    Exec (store me) (Fs.namei me path) fs₁ (.ok (some ip) fs₂) ∧ (fs₂.mem.itable ip).inum = i

/-- The image is that of a file. -/
structure OfFile (nd : Node) (g : Img) (ent : ℕ) : Prop where
  image : g = (elfSegs nd).foldl (Img.addSeg nd) .empty
  start : ent = elfEntry nd
  segs : ∀ p ∈ elfSegs nd, p.Ok ∧ p.Within nd

section Kexec

variable {sb : Superblock} {T : Tab} {V : Vol} {b : Bound} {ip : InodeId} {i : ℕ} {α : Type}

/-- The inode is released. -/
theorem wp_putEnd {Q : α → World → Prop} {k : Kern α}
    (hd : During sb me w.fs T V (.hold b [(ip, i)] [(ip, i)] [] 0 ∅)) (hbound : b.Ok sb)
    (hQ : ∀ fs, During sb me fs T V (.idle b) → wp (world me) err k Q { w with fs := fs }) :
    wp (world me) err (do onFs (Fs.iunlockput ip); onFs Fs.endOp; k) Q w := by
  have hd' : During sb me w.fs T V (((Hand.hold b [] [] [] 0 ∅).take ip i).lock ip i) := hd
  exact wp_bind (wp_onFs (Fs.iunlockput_keep hd' rfl (Finset.notMem_empty _)
    (fun hp => absurd hp List.not_mem_nil) fun fs₁ hd₁ =>
      wp_bind (wp_onFs (Fs.finish_during hd₁ hbound (by decide) fun fs₂ hd₂ => hQ fs₂ hd₂))))

/-- `kexec` up to the release of the inode: what has been loaded, or nothing. -/
def execLoad (K : Layout) (me : ProcId) (path : Fs.Path) : Kern (Option Loaded) := do
  onFs Fs.beginOp
  match ← onFs (Fs.namei me path) with
  | none => do
    onFs Fs.endOp
    return none
  | some ip => do
    onFs (Fs.ilock ip)
    let p ← onMach (pcb me)
    let l ← loadElf K (p.trapframe.getD 0) ip
    if l.ok then do
      onFs (Fs.iunlockput ip)
      onFs Fs.endOp
      return some l
    else do
      match l.pagetable with
      | none => pure ()
      | some pagetable => onMach (onPhys (procFreepagetable K pagetable l.sz))
      onFs (Fs.iunlockput ip)
      onFs Fs.endOp
      return none

theorem kexec_eq : kexec K me path argv = execLoad K me path >>= fun r => match r with
    | none => return -1
    | some l => onMach (execTail K me path argv (l.pagetable.getD 0) l.sz l.entry) := by
  unfold kexec execLoad
  simp only [Free.bind_assoc]
  refine congrArg _ (funext fun _ => congrArg _ (funext fun o => ?_))
  cases o with
  | none => simp only [Free.bind_assoc, Free.pure_eq, Free.ret_bind]
  | some ip =>
    simp only [Free.bind_assoc]
    refine congrArg _ (funext fun _ => congrArg _ (funext fun _ => congrArg _ (funext fun l => ?_)))
    cases l.ok
    · simp only [Bool.false_eq_true, if_false]
      cases l.pagetable <;> simp only [Free.bind_assoc, Free.pure_eq, Free.ret_bind]
    · simp only [if_true, Free.bind_assoc, Free.pure_eq, Free.ret_bind]

section Load

variable (hd : During sb me w.fs T V (.idle b)) (hbound : b.Ok sb)
  (hroom : err "iget: no inodes" ∨ T.busy + 2 < ninode)
  (hlive : err "ilock: no type" ∨ Fs.NoDangling V)
  (hpt : (w.mach.procs me).pagetable = some old) (htf : (w.mach.procs me).trapframe = some tf)
  (hsp : Space K w.mach.phys.mem old (w.mach.procs me).sz tf)
  (hg : Good K w.mach.phys (tables w.mach.phys.mem old +
    (frames w.mach.phys.mem old (w.mach.procs me).sz tf + R)))

include hd hbound hroom hlive htf hg

theorem execLoad_wp {Q : Option Loaded → World → Prop}
    (hnone : ∀ fs ph, During sb me fs T V (.idle b) → w.mach.phys.Moves ph 0 0 →
      Q none ⟨fs, { w.mach with phys := ph }⟩)
    (hsome : ∀ fs ph i root g ent, During sb me fs T V (.idle b) → Names me path w.fs i → g.Open →
      (Clear V i → OfFile (V.node i) g ent) → ent < 2 ^ 32 →
      Building K root tf g w.mach.phys ph →
      Q (some ⟨true, some root, g.sz, ent⟩) ⟨fs, { w.mach with phys := ph }⟩) :
    wp (world me) err (execLoad K me path) Q w := by
  have hg₀ := hg.apart_frame
  have hframe : K.Frame tf := hg₀.frame tf (.inr (by simp))
  unfold execLoad
  refine wp_bind (wp_onFs (wp_of_exec (Fs.beginOp_during hd rfl fun fs₁ hd₁ hex₁ => ?_)))
  refine wp_bind (wp_onFs (wp_of_exec (wp_bind (Fs.namex_during hd₁ rfl rfl rfl
    (fun j hj => absurd hj List.not_mem_nil) (hroom.imp_right fun h => Nat.lt_of_succ_lt h) hlive
    (fun fs₂ hd₂ => wp_pure fun _ => ?_) fun ip i _ fs₂ hd₂ hil _ => wp_pure fun hex₂ => ?_))))
  · exact wp_bind (wp_onFs (Fs.finish_during hd₂ hbound (by decide) fun fs₃ hd₃ =>
      wp_pure (hnone fs₃ _ hd₃ .refl)))
  have hnum : (fs₂.mem.itable ip).inum = i := by
    obtain ⟨m, hs, hc, -⟩ := hd₂
    rw [hs.mem]
    exact hc.slots.name (ip, i) (.inl List.mem_cons_self)
  have hnames : Names me path w.fs i := ⟨ip, fs₁, fs₂, hex₁, hex₂, hnum⟩
  refine wp_bind (wp_onFs (Fs.ilock_ref hd₂ List.mem_cons_self hil fun fs₃ hd₃ => ?_))
  have hd₃' : During sb me fs₃ T V (.hold b [(ip, i)] [(ip, i)] [] 0 ∅) := hd₃
  refine wp_bind (wp_onMach (.of_eq rfl ?_))
  simp only [htf, Option.getD_some]
  have hread : Reads me err ip fs₃ (Clear V i) (V.node i) := fun off n Q hQ =>
    Fs.readiKernel_during hd₃' List.mem_cons_self fun l hle hl => hQ l hle hl
  refine wp_bind (loadElf_wp hread hg₀ hframe (fun ph hm => ?_) fun ok root g ent ph hph hent h => ?_)
  · rw [if_neg (by decide)]
    exact wp_putEnd (w := World.withPhys ⟨fs₃, w.mach⟩ ph) hd₃' hbound fun fs₄ hd₄ =>
      wp_pure (hnone fs₄ ph hd₄ hm)
  · cases ok with
    | false =>
      rw [if_neg Bool.false_ne_true]
      refine wp_bind (wp_onPhys (.mono (hph.free hg₀) fun _ ph' hm => ?_))
      exact wp_putEnd (w := World.withPhys ⟨fs₃, w.mach⟩ ph') hd₃' hbound fun fs₄ hd₄ =>
        wp_pure (hnone fs₄ ph' hd₄ hm)
    | true =>
      obtain ⟨hopen, hfile⟩ := h rfl
      rw [if_pos rfl]
      exact wp_putEnd (w := World.withPhys ⟨fs₃, w.mach⟩ ph) hd₃' hbound fun fs₄ hd₄ =>
        wp_pure (hsome fs₄ ph i root g ent hd₄ hnames hopen
          (fun hc => ⟨(hfile hc).1, (hfile hc).2.1, (hfile hc).2.2⟩) hent hph)

include hpt hsp

/-- `kexec`, from a state between calls. -/
theorem kexec_wp {Q : ℤ → World → Prop} (hlen : ∀ arg ∈ argv, arg.length < pgsize)
    (hcount : argv.length < maxarg)
    (hfail : ∀ fs ph, During sb me fs T V (.idle b) → w.mach.phys.Moves ph 0 0 →
      Q (-1) ⟨fs, { w.mach with phys := ph }⟩)
    (hok : ∀ fs ph i root g ent, During sb me fs T V (.idle b) → Names me path w.fs i → g.Open →
      (Clear V i → OfFile (V.node i) g ent) → ArgsFit g.withStack.sz argv →
      Replaced K old (w.mach.procs me).sz tf root (g.withStack.withArgs argv)
        (blockSp g.withStack.sz argv) ent w.mach.phys ph →
      Q argv.length ⟨fs, w.mach.put ph me ((w.mach.procs me).exec path root g.withStack.sz)⟩) :
    wp (world me) err (kexec K me path argv) Q w := by
  rw [kexec_eq]
  refine wp_bind (execLoad_wp hd hbound hroom hlive htf hg (fun fs ph hd' hm => wp_pure (hfail fs ph hd' hm))
    fun fs ph i root g ent hd' hnames hopen hfile hent hph => wp_onMach ?_)
  refine execTail_ends (m := { w.mach with phys := ph }) hpt htf hsp hg hph hlen hcount hent
    (fun ph' _ hm => hfail fs ph' hd' hm) fun ph' hfit hr => ?_
  exact hok fs ph' i root g ent hd' hnames hopen hfile hfit hr

end Load

end Kexec

end Xv6.Vm
