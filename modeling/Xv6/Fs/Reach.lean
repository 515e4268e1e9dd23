import Xv6.Fs.Descriptors

/-!
# Runs of system calls

`boot` is what the kernel does to files before the first process runs a program. A state is reached
from an image when a boot and then calls of any processes lead to it (`Reach`). Between calls every
such state is one that holds nothing (`Between`), and a call changes the files in one of four ways
(`Change`).
-/

namespace Xv6

open Conc Eff Vol Count

/-! ## Boot -/

/-- The tables before boot. -/
def Mem.zero : Mem where
  sb := ⟨0, 0, 0, 0, 0, 0, 0, 0⟩
  itable _ := ⟨0, 0, 0, none, false, .zero⟩
  ftable _ := ⟨.none, 0, false, false, 0, 0, 0, 0⟩
  pipe _ := none
  proc _ := ⟨fun _ => none, none⟩
  aux := ⟨fun _ => 0, fun _ _ => 0⟩

/-- The state before boot. -/
def FsSt.start (img : ℕ → Block) : FsSt := ⟨img, img, .zero, 0, ∅, 0⟩

/-- The superblock of an image. -/
def imageSb (img : ℕ → Block) : Superblock := getSuperblock (img 1)

/-- The volume of an image. -/
def imageVol (img : ℕ → Block) : Vol :=
  vol ⟨img, img, { Mem.zero with sb := imageSb img }, 0, ∅, 0⟩

/-- An image of a file system: the regions of the superblock do not overlap, ownership of blocks is
exact, there is a block for each index below a size, the entries of directories are whole and name
inodes of the volume, and there is a root. -/
structure ImageOk (img : ℕ → Block) : Prop where
  magic : (imageSb img).magic = fsmagic
  layout : Layout (imageSb img)
  ok : VolOk (imageSb img) (imageVol img)
  ents : ∀ j, EntsOk (imageSb img) ((imageVol img).node j)
  root : ((imageVol img).ino rootino).type ≠ 0

/-- The call holds nothing, and some inodes are not accounted for. -/
def Hand.strays (b : Bound) (F : Finset ℕ) : Hand := { Hand.idle b with fresh := F }

namespace Fs

/-- What `userinit` does to files: `p->cwd = namei("/")`. -/
def userinit (p : ProcId) : Fs Unit := do
  let ip ← namei p [slash]
  modify fun m => m.setProc p { m.proc p with cwd := ip }

/-- What the kernel does to files before the first process runs a program: `userinit`, and `fsinit`
in `forkret`. -/
def boot : Fs Unit := do
  userinit 0
  fsinit

/-- The states that the kernel reaches from an image, between system calls. -/
inductive Reach (img : ℕ → Block) : FsSt → Prop
  | boot {s : FsSt} (h : Exec (store 0) boot (.start img) (.ok () s)) : Reach img s
  | step {s s' : FsSt} (h : Reach img s) (hs : Step s s') : Reach img s'

variable {err : String → Prop} {sb : Superblock} {t : Tid} {s : FsSt} {T : Tab}
  {V W : Vol} {h : Hand} {b : Bound} {p : ProcId} {ip : InodeId} {i : ℕ}

/-! ## Calls -/

/-- What a call does to files, directories and link counts: it makes and removes no names, or makes
one for a new or an old file, or removes one. -/
inductive Change (sb : Superblock) (V : Vol) (a : FsAux) (W : Vol) (a' : FsAux) : Prop
  | calm (h : NameCalm V W) (ha : AuxCalm V a a')
  | create {U : Vol} {d k i : ℕ} {name : Name} {type major minor : ℕ} (ht : type ≠ 0)
      (hc : Created sb V a U a' d k i name type major minor) (h : NameCalm U W)
  | link {U : Vol} {d k i : ℕ} {name : Name} (hl : Linked V a U a' d k i name) (h : NameCalm U W)
  | unlink {U : Vol} {d k i : ℕ} {name : Name} (hu : Unlinked V U d k i name) (ha : a' = a)
      (h : NameCalm U W)

/-- The calls that take the name of a file. -/
def Call.Names : Call → Prop
  | .open _ _ | .link _ _ | .unlink _ | .mkdir _ | .mknod _ _ _ | .chdir _ => True
  | _ => False

/-- An `open` that makes its file and then finds no slot for it. -/
def LateOpen (sb : Superblock) (p : ProcId) (c : Call) (T : Tab) (V : Vol) (T' : Tab) (W : Vol) :
    Prop :=
  (∃ path omode, c = .open path omode ∧ omode.testBit 9 = true) ∧ TablesFull T p ∧
    (∃ a, T' = T.withAux a) ∧
    ∃ U d k i name, Created sb V T.aux U T'.aux d k i name tFile 0 0 ∧ NameCalm U W

/-- After a call on names that fails, the tables and the files are as before, but for an `open` that
is late. -/
def FailsClean (sb : Superblock) (p : ProcId) (c : Call) (T : Tab) (V : Vol) (T' : Tab) (W : Vol)
    (r : ℤ) : Prop :=
  c.Names → r = -1 → (∃ a, T' = T.withAux a) ∧ (∀ j, W.node j = V.node j) ∨ LateOpen sb p c T V T' W

theorem FailsClean.of_calm {c : Call} {T' : Tab} {r : ℤ} (hc : ¬ c.Names) :
    FailsClean sb p c T V T' W r := fun h => absurd h hc

theorem FailsClean.of_ne {c : Call} {T' : Tab} {r : ℤ} (hr : r ≠ -1) :
    FailsClean sb p c T V T' W r := fun _ h => absurd h hr

/-- A call, from one state between calls to another. -/
theorem call_during {c : Call} {Q : ℤ → FsSt → Prop} (hd : During sb p s T V (.idle b))
    (hen : c.Enabled s.mem p) (hb : b.Ok sb)
    (hroom : err "iget: no inodes" ∨ T.busy + 2 < ninode)
    (hlive : err "ilock: no type" ∨ NoDangling V) (hlinks : err "unlink: nlink < 1" ∨ Counted V)
    (hQ : ∀ r s' T' W, During sb p s' T' W (.idle b) → Change sb V T.aux W T'.aux →
      FailsClean sb p c T V T' W r → Q r s') : wp (store p) err (c.body p) Q s := by
  have htab : s.mem.tab = T := by
    obtain ⟨m, hs, hc, -⟩ := hd
    rw [hs.mem]
    exact hc.tab
  have hcwd : Live s.mem p → ∃ jp, (T.proc p).cwd = some jp := fun hl => by
    rw [← htab]
    exact Option.isSome_iff_exists.1 hl
  have hfd : ∀ fd : Fin nofile, ((fd : ℕ) : ℤ) ≠ -1 := fun fd => by omega
  -- a call that makes and removes no names
  have hcalm : ¬ c.Names → ∀ r s' T' W, During sb p s' T' W (.idle b) → T'.aux = T.aux →
      NameCalm V W → Q r s' := fun hc r s' T' W hd' ha hcm =>
    hQ r s' T' W hd' (.calm hcm (.of_eq ha)) (.of_calm hc)
  have hsame : ∀ s', During sb p s' T V (.idle b) → Q (-1) s' := fun s' hd' =>
    hQ _ s' T V hd' (.calm (.refl V) (.refl V _)) fun _ _ => .inl ⟨⟨T.aux, rfl⟩, fun _ => rfl⟩
  have hfail : ∀ s' a W, During sb p s' (T.withAux a) W (.idle b) → (∀ j, W.node j = V.node j) →
      AuxCalm V T.aux a → Q (-1) s' := fun s' a W hd' hnode ha =>
    hQ _ s' _ W hd' (.calm (.of_node hnode) ha) fun _ _ => .inl ⟨⟨a, rfl⟩, hnode⟩
  cases c with
  | «open» path omode =>
    refine sysOpen_during hd hb hroom hlive hfail (fun s' T' W fd hd' ha hcm => ?_)
      (fun s' a U W d l i name hd' hfull hom hcr hcm => ?_) fun s' T' U W fd d l i name hd' hcr hcm => ?_
    · exact hQ _ s' T' W hd' (.calm hcm (.of_eq ha)) (.of_ne (hfd fd))
    · exact hQ _ s' _ W hd' (.create (by decide) hcr hcm) fun _ _ =>
        .inr ⟨⟨path, omode, rfl, hom⟩, hfull, ⟨a, rfl⟩, U, d, l, i, name, hcr, hcm⟩
    · exact hQ _ s' T' W hd' (.create (by decide) hcr hcm) (.of_ne (hfd fd))
  | close fd => exact sysClose_during hd hb (hcalm id)
  | dup fd => exact sysDup_during hd fun r s' T' hd' ha => hcalm id r s' T' V hd' ha (.refl V)
  | read fd w va n dev =>
    exact sysRead_during hd fun r s' T' hd' ha => hcalm id r s' T' V hd' ha (.refl V)
  | write fd u va n dev => exact sysWrite_during hd (fun hw => (hb hw).2) (hcalm id)
  | fstat fd ok => exact sysFstat_during hd fun r s' hd' => hcalm id r s' T V hd' rfl (.refl V)
  | link old new =>
    refine sysLink_during hd hb hroom hlive (fun s' W hd' hnode => hfail s' T.aux W hd' hnode (.refl V _))
      fun s' U W d k i name hd' hl hcm => ?_
    exact hQ _ s' _ W hd' (.link hl hcm) (.of_ne (by decide))
  | unlink path =>
    refine sysUnlink_during hd hb hroom hlive hlinks hsame fun s' U W d k i name hd' hu hcm => ?_
    exact hQ _ s' T W hd' (.unlink hu rfl hcm) (.of_ne (by decide))
  | mkdir path =>
    refine makeNode_during hd hb (by decide) (by decide) (by decide) hroom hlive hfail
      fun s' a U W d l i name hd' hcr hcm => ?_
    exact hQ _ s' _ W hd' (.create (by decide) hcr hcm) (.of_ne (by decide))
  | mknod path major minor =>
    refine makeNode_during hd hb (by decide) (by decide) (by decide) hroom hlive hfail
      fun s' a U W d l i name hd' hcr hcm => ?_
    exact hQ _ s' _ W hd' (.create (by decide) hcr hcm) (.of_ne (by decide))
  | chdir path =>
    obtain ⟨jp, hjp⟩ := hcwd hen
    refine sysChdir_during hd hb hjp hroom hlive hsame fun s' T' W hd' ha hcm => ?_
    exact hQ _ s' T' W hd' (.calm hcm (.of_eq ha)) (.of_ne (by decide))
  | pipe page ok =>
    refine sysPipe_during hd hb (fun a ha => ?_) (hcalm id)
    rw [← htab]
    exact hen.2 a ha
  | exec path pt vm ret =>
    exact sysExec_during hd hb hroom hlive fun r s' hd' => hcalm id r s' T V hd' rfl (.refl V)
  | fork np =>
    obtain ⟨-, hc, ho⟩ := hen
    rw [show s.mem.proc = T.proc by rw [← htab]; rfl] at hc ho
    exact forkFiles_during hd hc ho fun r s' T' hd' ha => hcalm id r s' T' V hd' ha (.refl V)
  | exit =>
    obtain ⟨jp, hjp⟩ := hcwd hen
    exact exitFiles_during hd hb hjp (hcalm id)

/-! ## Reclaiming orphans -/

/-- What the call takes over may have fewer inodes that are not accounted for. -/
theorem slots_refresh {I : InodeId → Inode} {F : Finset ℕ} (hs : Slots sb t T I V h)
    (hF : ∀ j ∈ h.fresh, (V.ino j).type ≠ 0 → (V.ino j).nlink = 0 → j ∈ F ∨
      ∃ k, (I k).inum = j ∧ (I k).valid = true ∧ k ∈ h.pins ∧ 0 < h.count k) :
    Slots sb t T I V { h with fresh := F } := by
  refine ⟨hs.ref, hs.owed, hs.lock, hs.nodup, hs.held, hs.name, hs.named, hs.uniq, hs.copy, hs.live,
    hs.writable, fun j hj ht hn => ?_⟩
  rcases hs.orphan j hj ht hn with hf | ⟨k, hk, hv, hd⟩
  · rcases hF j hf ht hn with hf | ⟨k, hk, hv, hd⟩
    · exact .inl hf
    · exact .inr ⟨k, hk, hv, .inr hd⟩
  · exact .inr ⟨k, hk, hv, hd⟩

/-- A locked inode is accounted for. -/
theorem During.adopt (hd : During sb t s T V h) (hx : (ip, i) ∈ h.locks) (hr : (ip, i) ∈ h.refs) :
    During sb t s T V { h.pin ip with fresh := h.fresh.erase i } := by
  obtain ⟨m, hs, hc, hp⟩ := hd
  have hpin : Slots sb t T m.itable V (h.pin ip) :=
    hc.slots.reorder (List.Perm.refl _) (List.Perm.refl _) (fun _ hj _ => List.mem_cons_of_mem _ hj)
      rfl rfl
  refine ⟨m, hs, ⟨hc.super, hc.tab, hc.ok, hc.ents, slots_refresh hpin fun j hj _ _ => ?_,
    hc.files.congr rfl rfl⟩, hp.wrote, hp.spent, hp.ops⟩
  by_cases hji : j = i
  · exact .inr ⟨ip, (hc.slots.name (ip, i) (.inr hx)).trans hji.symm, (hc.slots.held _ hx).2,
      List.mem_cons_self, Hand.count_pos hr⟩
  · exact .inl (Finset.mem_erase.2 ⟨hji, hj⟩)

/-- An inode that is no orphan need not be accounted for. -/
theorem During.dismiss (hd : During sb t s T V h) (hi : (V.ino i).type = 0 ∨ (V.ino i).nlink ≠ 0) :
    During sb t s T V { h with fresh := h.fresh.erase i } := by
  obtain ⟨m, hs, hc, hp⟩ := hd
  refine ⟨m, hs, ⟨hc.super, hc.tab, hc.ok, hc.ents, slots_refresh hc.slots fun j hj ht hn => ?_,
    hc.files.congr rfl rfl⟩, hp.wrote, hp.spent, hp.ops⟩
  refine .inl (Finset.mem_erase.2 ⟨?_, hj⟩)
  rintro rfl
  exact hi.elim ht fun h => h hn

/-- The loop of `ireclaim`. -/
theorem ireclaimLoop_during {l : List ℕ} {F : Finset ℕ} {Q : Unit → FsSt → Prop}
    (hl : ∀ i ∈ l, 0 < i ∧ i < sb.ninodes) (hF : ∀ j ∈ F, j ∈ l) (hroom : T.busy < ninode)
    (hb : b.Ok sb) (hd : During sb t s T V (.strays b F))
    (hQ : ∀ s' W, During sb t s' T W (.idle b) → NameCalm V W → Q () s') :
    wp (store t) err (ireclaimLoop sb l) Q s := by
  induction l generalizing s V F with
  | nil =>
    obtain rfl : F = ∅ := Finset.eq_empty_of_forall_notMem fun j hj => List.not_mem_nil (hF j hj)
    exact wp_pure (hQ s V hd (.refl V))
  | cons i l ih =>
    obtain ⟨hi, hlt⟩ := hl i List.mem_cons_self
    have hl' : ∀ j ∈ l, 0 < j ∧ j < sb.ninodes := fun j hj => hl j (List.mem_cons_of_mem _ hj)
    have hF' : ∀ j ∈ F.erase i, j ∈ l := fun j hj => by
      obtain ⟨hne, hj⟩ := Finset.mem_erase.1 hj
      exact (List.mem_cons.1 (hF j hj)).resolve_left hne
    have hread : s.cached (iblock i sb) = s.logged (iblock i sb) ∧
        getDinode (s.logged (iblock i sb)) (i % ipb) = V.ino i := by
      obtain ⟨m, hs, hc, -⟩ := hd
      obtain rfl := hc.super
      exact ⟨hs.tight _ (hs.layout.iblock_lt_dataStart hlt), hs.ino_eq hlt⟩
    refine wp_bind (bread_wp_of_eq hread.1 ?_)
    simp only [hread.2]
    split
    · -- an orphan is read, dropped and so freed
      rename_i horphan
      refine wp_bind (iget_during hd hi hlt (.inr (by simpa [Hand.strays, Hand.idle] using hroom))
        fun ip s₁ hd₁ => ?_)
      refine wp_bind (brelse_wp ?_)
      refine wp_bind (beginOp_during hd₁ rfl fun s₂ hd₂ => ?_)
      refine wp_bind (ilock_ref hd₂ List.mem_cons_self (.inr horphan.1) fun s₃ hd₃ => ?_)
      have hd₄ := During.adopt hd₃ List.mem_cons_self List.mem_cons_self
      have hd₄' : During sb t s₃ T V ((Hand.lock { Hand.hold b [(ip, i)] [] [ip] 0 ∅ with
        fresh := F.erase i } ip i)) := hd₄
      refine wp_bind (iunlock_during hd₄' fun s₅ hd₅ _ => ?_)
      have hrest : ∀ s' W I, During sb t s' T W { Hand.hold b [] [] [ip] 0 I with fresh := F.erase i } →
          I.card ≤ 1 → NameCalm V W → wp (store t) err (do endOp; ireclaimLoop sb l) Q s' := by
        intro s' W I hd' hI hcalm
        refine wp_bind (endOp_fits hd' rfl hb ?_ fun s'' hd'' => ?_)
        · simp only [Hand.hold, maxopblocks]
          omega
        refine ih hl' hF' ?_ fun s₆ X hd₆ hcalm' => hQ s₆ X hd₆ (hcalm.trans hcalm')
        refine hd''.weaken (List.Perm.refl _) (List.Perm.refl _) (fun j _ h0 => ?_) (Nat.le_refl _)
          (Finset.Subset.refl _) rfl
        exact absurd h0 (by simp [Hand.count, Hand.hold])
      have hd₅' : During sb t s₅ T V
        (Hand.take { Hand.hold b [] [] [ip] 0 ∅ with fresh := F.erase i } ip i) := hd₅
      refine wp_bind (iput_during hd₅' rfl ?_ (Finset.notMem_erase i F)
        (fun s₆ hd₆ => hrest s₆ V ∅ hd₆ (Nat.zero_le _) (.refl V))
        fun _ _ s₆ W hd₆ _ hnode ht hn => hrest s₆ W _ hd₆ ?_ (.of_freed hnode ht hn))
      · rintro ⟨x, hx, -⟩
        exact absurd hx List.not_mem_nil
      · simp [Hand.hold]
    · rename_i horphan
      refine wp_bind (brelse_wp (ih hl' hF' (During.dismiss hd ?_) hQ))
      by_cases ht : (V.ino i).type = 0
      · exact .inl ht
      · exact .inr fun hn => horphan ⟨ht, hn⟩

/-! ## Between calls -/

/-- A state between calls: nothing is held, and the counts of references are exact. -/
def Between (sb : Superblock) (b : Bound) (s : FsSt) : Prop :=
  During sb 0 s s.mem.tab (vol s) (.idle b)

theorem During.between (hd : During sb t s T V (.idle b)) :
    Between sb b s ∧ T = s.mem.tab ∧ V = vol s := by
  obtain ⟨m, hs, hc, hp⟩ := hd
  obtain rfl := hs.mem
  obtain rfl := hs.vol
  obtain rfl := hc.tab
  refine ⟨⟨_, hs, ⟨hc.super, rfl, hc.ok, hc.ents, ⟨hc.slots.ref, hc.slots.owed, fun i => ?_,
    hc.slots.nodup, hc.slots.held, hc.slots.name, hc.slots.named, hc.slots.uniq, hc.slots.copy,
    hc.slots.live, hc.slots.writable, hc.slots.orphan⟩, hc.files⟩, hp⟩, rfl, rfl⟩
  have hno : ¬ (Hand.idle b).Locks i := fun ⟨x, hx, _⟩ => List.not_mem_nil hx
  rw [hc.slots.lock i, if_neg hno, if_neg hno]

/-- Any process may make the next call, with any bound that has been kept. -/
theorem Between.during (hs : Between sb b s) (b' : Bound) (t : Tid)
    (hspent : b'.when → s.spent ≤ b'.peak) : During sb t s s.mem.tab (vol s) (.idle b') := by
  obtain ⟨m, hs, hc, hp⟩ := hs
  refine ⟨m, hs, ⟨hc.super, hc.tab, hc.ok, hc.ents, ⟨hc.slots.ref, hc.slots.owed, fun i => ?_,
    hc.slots.nodup, hc.slots.held, hc.slots.name, hc.slots.named, hc.slots.uniq, hc.slots.copy,
    hc.slots.live, hc.slots.writable, hc.slots.orphan⟩, hc.files.congr rfl rfl⟩, hp.wrote, hspent, hp.ops⟩
  have hno : ∀ b, ¬ (Hand.idle b).Locks i := fun _ ⟨x, hx, _⟩ => List.not_mem_nil hx
  rw [hc.slots.lock i, if_neg (hno _), if_neg (hno _)]

/-! ## After boot -/

/-- The tables after `userinit`. -/
def bootMem : Mem :=
  (Mem.zero.setInode 0 ⟨rootdev, rootino, 1, none, false, .zero⟩).setProc 0 ⟨fun _ => none, some 0⟩

theorem mem_ok {α : Type} {f : Action Mem α} {a : α} {m : Mem} {Q : α → FsSt → Prop}
    (hf : f t s.mem = .ok a m) (hQ : Q a (s.withMem m)) : wp (store t) err (mem f) Q s := by
  refine wp_call ?_
  rintro o rfl
  rw [hf]
  exact hQ

theorem userinit_wp {img : ℕ → Block} {Q : Unit → FsSt → Prop}
    (hQ : Q () ((FsSt.start img).withMem bootMem)) :
    wp (store 0) err (userinit 0) Q (.start img) := by
  have hget : igetSection rootdev rootino 0 (FsSt.start img).mem =
      .ok 0 (Mem.zero.setInode 0 ⟨rootdev, rootino, 1, none, false, .zero⟩) := rfl
  refine wp_bind (wp_bind (wp_bind (mem_ok hget ?_)))
  refine wp_pure (wp_pure (mem_ok rfl ?_))
  exact hQ

theorem users_bootMem (i : InodeId) : bootMem.tab.users i = if i = 0 then 1 else 0 := by
  have hzero : Mem.zero.tab.users i = 0 := by
    refine congrArg₂ (· + ·) (num_eq_zero fun f hf => ?_) (num_eq_zero fun p hp => ?_)
    · exact absurd hf.1 (by simp [Mem.tab, Mem.zero])
    · exact absurd hp (by simp [Mem.tab, Mem.zero])
  have hset : (Mem.zero.tab.setCwd 0 (some 0)).users i + (if none = some i then 1 else 0) =
      Mem.zero.tab.users i + if some 0 = some i then 1 else 0 := Tab.users_setCwd
  rw [hzero, if_neg (show ¬ none = some i by simp)] at hset
  refine (show bootMem.tab.users i = (Mem.zero.tab.setCwd 0 (some 0)).users i from rfl).trans ?_
  by_cases hi : i = 0
  · subst hi
    rw [if_pos rfl] at hset ⊢
    omega
  · rw [if_neg fun e => hi (Option.some.inj e).symm] at hset
    rw [if_neg hi]
    omega

theorem busy_bootMem : bootMem.tab.busy ≤ 1 := by
  unfold Tab.busy num
  refine Finset.card_le_one.2 fun i hi j hj => ?_
  simp only [Finset.mem_filter, Finset.mem_univ, true_and, users_bootMem] at hi hj
  split at hi
  · rename_i hi0
    split at hj
    · rename_i hj0
      rw [hi0, hj0]
    · exact absurd hj (Nat.lt_irrefl 0)
  · exact absurd hi (Nat.lt_irrefl 0)

theorem fds_bootMem (f : FileId) : bootMem.tab.fds f = 0 := by
  refine num_eq_zero fun x hx => ?_
  have hnone : (bootMem.tab.proc x.1).ofile x.2 = none := by
    show (if x.1 = 0 then _ else _ : ProcFiles).ofile x.2 = none
    split <;> rfl
  rw [hnone] at hx
  cases hx

theorem files_bootMem : Files bootMem.tab h ↔ ∀ f, h.fowed.count f = h.files.count f := by
  constructor
  · intro hf f
    have := hf.ref f
    rw [fds_bootMem] at this
    have h0 : (bootMem.tab.ftable f).ref = 0 := rfl
    omega
  · intro hf
    refine ⟨fun f => ?_, fun _ _ => rfl, fun f hlt => ?_, ⟨fun hx => ?_, fun hx => ?_, fun hx => ?_⟩,
      fun a v hv => ?_⟩
    · rw [fds_bootMem, hf f]
      rfl
    · rw [fds_bootMem] at hlt
      exact absurd hlt (Nat.not_lt_zero _)
    · cases hx
    · obtain ⟨v, hv, -⟩ := hx
      cases hv
    · cases hx
    · cases hv

/-- The tables after `userinit`, for an image with a root. -/
theorem slots_bootMem {I : InodeId → Inode} {F : Finset ℕ} (hI : I = bootMem.itable)
    (hroot : (V.ino rootino).type ≠ 0) (hlt : rootino < sb.ninodes)
    (hF : ∀ j, 0 < j → (V.ino j).type ≠ 0 → (V.ino j).nlink = 0 → j ∈ F) :
    Slots sb t bootMem.tab I V (.strays b F) := by
  subst hI
  have hself : bootMem.itable 0 = ⟨rootdev, rootino, 1, none, false, .zero⟩ := rfl
  have hother : ∀ i, i ≠ 0 → bootMem.itable i = ⟨0, 0, 0, none, false, .zero⟩ := fun i hi => if_neg hi
  have hzero : ∀ i, 0 < (bootMem.itable i).ref → i = 0 := fun i hi => by
    by_contra hne
    rw [hother i hne] at hi
    exact absurd hi (Nat.lt_irrefl 0)
  have hpos : ∀ i, 0 < bootMem.tab.users i → i = 0 := fun i hi => by
    rw [users_bootMem] at hi
    split at hi
    · assumption
    · exact absurd hi (Nat.lt_irrefl 0)
  refine ⟨fun i => ?_, fun i => Nat.zero_le _, fun i => ?_, List.nodup_nil,
    fun x hx => absurd hx List.not_mem_nil, fun x hx => ?_, fun i hi => ?_,
    fun i j hi hj _ => (hzero i hi).trans (hzero j hj).symm, fun i hi hv => ?_, fun i hi => ?_,
    fun f i hf => ?_, fun j hj ht hn => .inl (hF j hj ht hn)⟩
  · rw [users_bootMem]
    by_cases hi : i = 0
    · subst hi
      rfl
    · rw [hother i hi, if_neg hi]
      rfl
  · rw [if_neg fun ⟨x, hx, _⟩ => List.not_mem_nil hx]
    by_cases hi : i = 0
    · subst hi
      rfl
    · rw [hother i hi]
  · rcases hx with hx | hx <;> exact absurd hx List.not_mem_nil
  · obtain rfl := hzero i hi
    exact ⟨rfl, by decide, hlt⟩
  · obtain rfl := hzero i hi
    rw [hself] at hv
    cases hv
  · obtain rfl := hpos i hi
    exact hroot
  · exact absurd hf.1 (by simp [Mem.tab, bootMem, Mem.zero, Mem.setProc, Mem.setInode])

/-- Boot from an image of a file system. -/
theorem boot_during {img : ℕ → Block} {Q : Unit → FsSt → Prop} (himg : ImageOk img)
    (hb : b.Ok (imageSb img))
    (hQ : ∀ s', Between (imageSb img) b s' → s'.mem.tab = bootMem.tab →
      NameCalm (imageVol img) (vol s') → Q () s') : wp (store 0) err boot Q (.start img) := by
  refine wp_bind (userinit_wp ?_)
  refine wp_bind (bread_wp_of_eq rfl ?_)
  refine wp_bind (mem_ok rfl ?_)
  refine wp_bind (brelse_wp ?_)
  have hmagic : (getSuperblock (((FsSt.start img).withMem bootMem).logged 1)).magic = fsmagic :=
    himg.magic
  rw [if_neg (not_not.2 hmagic)]
  have hd : During (imageSb img) 0 (((FsSt.start img).withMem bootMem).withMem
      { bootMem with sb := imageSb img }) bootMem.tab (imageVol img)
      (.strays b ((Finset.range (imageSb img).ninodes).filter fun j => 0 < j ∧
        ((imageVol img).ino j).type ≠ 0 ∧ ((imageVol img).ino j).nlink = 0)) := by
    refine ⟨_, ⟨rfl, rfl, himg.layout, fun _ _ => rfl⟩, ⟨rfl, rfl, himg.ok, himg.ents,
      slots_bootMem rfl himg.root himg.layout.root fun j hj ht hn => ?_, files_bootMem.2 fun _ => rfl⟩,
      ⟨∅, Nat.zero_le _, fun b hb => absurd hb (Finset.notMem_empty b)⟩, fun _ => Nat.zero_le _, rfl⟩
    refine Finset.mem_filter.2 ⟨Finset.mem_range.2 (not_le.1 fun hle => ht ?_), hj, ht, hn⟩
    exact congrArg Dinode.type (if_neg (not_lt.2 hle))
  refine wp_bind (gets_during hd fun m hc => ?_)
  rw [hc.super]
  refine ireclaimLoop_during (fun i hi => ?_) (fun j hj => ?_)
    (Nat.lt_of_le_of_lt busy_bootMem (by decide)) hb hd fun s' W hd' hcalm => ?_
  · have := List.mem_range'_1.1 hi
    omega
  · obtain ⟨hj, h0, -⟩ := Finset.mem_filter.1 hj
    have := Finset.mem_range.1 hj
    exact List.mem_range'_1.2 (by omega)
  · obtain ⟨hbt, htab, rfl⟩ := During.between hd'
    exact hQ s' hbt htab.symm hcalm

/-! ## Runs -/

/-- A call from a state between calls leads to another. -/
theorem Between.call {s' : FsSt} {c : Call} {r : ℤ} (hs : Between sb b s) (hb : b.Ok sb)
    (hen : c.Enabled s.mem p) (hex : Exec (store p) (c.body p) s (.ok r s')) :
    Between sb b s' ∧ Change sb (vol s) s.mem.aux (vol s') s'.mem.aux ∧
      FailsClean sb p c s.mem.tab (vol s) s'.mem.tab (vol s') r := by
  have hspent : b.when → s.spent ≤ b.peak := by
    obtain ⟨m, -, -, hp⟩ := hs
    exact hp.spent
  have hwp : wp (store p) (fun _ => True) (c.body p) (fun r s' => Between sb b s' ∧
      Change sb (vol s) s.mem.aux (vol s') s'.mem.aux ∧
      FailsClean sb p c s.mem.tab (vol s) s'.mem.tab (vol s') r) s := by
    refine call_during (hs.during b p hspent) hen hb (.inl trivial) (.inl trivial) (.inl trivial)
      fun r s' T' W hd' hch hfc => ?_
    obtain ⟨hbt, rfl, rfl⟩ := During.between hd'
    exact ⟨hbt, hch, hfc⟩
  exact hwp _ hex

/-- The panics that a call may reach, and when. -/
theorem Between.panic {c : Call} {msg : String} (hs : Between sb b s)
    (hen : c.Enabled s.mem p) (hex : Exec (store p) (c.body p) s (.panic msg)) :
    (msg = "iget: no inodes" ∧ ¬ s.mem.tab.busy + 2 < ninode) ∨
      (msg = "ilock: no type" ∧ ¬ NoDangling (vol s)) ∨
      (msg = "unlink: nlink < 1" ∧ ¬ Counted (vol s)) := by
  have hwp : wp (store p) (fun msg => (msg = "iget: no inodes" ∧ ¬ s.mem.tab.busy + 2 < ninode) ∨
      (msg = "ilock: no type" ∧ ¬ NoDangling (vol s)) ∨
      (msg = "unlink: nlink < 1" ∧ ¬ Counted (vol s))) (c.body p) (fun _ _ => True) s := by
    refine call_during (hs.during ⟨False, 0⟩ p False.elim) hen False.elim ?_ ?_ ?_
      fun _ _ _ _ _ _ _ => trivial
    · by_cases h : s.mem.tab.busy + 2 < ninode
      · exact .inr h
      · exact .inl (.inl ⟨rfl, h⟩)
    · by_cases h : NoDangling (vol s)
      · exact .inr h
      · exact .inl (.inr (.inl ⟨rfl, h⟩))
    · by_cases h : Counted (vol s)
      · exact .inr h
      · exact .inl (.inr (.inr ⟨rfl, h⟩))
  exact hwp _ hex

/-- Every state that is reached from an image of a file system is one between calls. -/
theorem Reach.between {img : ℕ → Block} (hr : Reach img s) (himg : ImageOk img)
    (hb : b.Ok (imageSb img)) : Between (imageSb img) b s := by
  induction hr with
  | boot h =>
    have hwp : wp (store 0) (fun _ => True) Fs.boot (fun _ s' => Between (imageSb img) b s')
        (.start img) := boot_during himg hb fun s' hs' _ _ => hs'
    exact hwp _ h
  | step _ hs ih =>
    obtain ⟨p, c, r, hen, hex⟩ := hs
    exact (ih.call hb hen hex).1

/-- The states that the kernel reaches from an image by calls that meet a condition. -/
inductive ReachIf (K : FsSt → ProcId → Call → Prop) (img : ℕ → Block) : FsSt → Prop
  | boot {s : FsSt} (h : Exec (store 0) boot (.start img) (.ok () s)) : ReachIf K img s
  | step {s s' : FsSt} {p : ProcId} {c : Call} {r : ℤ} (h : ReachIf K img s)
      (hen : c.Enabled s.mem p) (hK : K s p c) (hex : Exec (store p) (c.body p) s (.ok r s')) :
      ReachIf K img s'

/-! ## Runs by evaluation -/

instance (m : Mem) (p : ProcId) (c : Call) : Decidable (c.Enabled m p) := by
  unfold Call.Enabled Unused Live
  cases c <;> infer_instance

/-- The state after boot, when no buffer is recycled. -/
def bootRun (img : ℕ → Block) : Option FsSt :=
  match run (storeRun 0) boot (.start img) with
  | .ok _ s => some s
  | _ => none

/-- The state after calls that return, when no buffer is recycled. -/
def callsRun : List (ProcId × Call) → FsSt → Option FsSt
  | [], s => some s
  | (p, c) :: cs, s =>
    if c.Enabled s.mem p then
      match run (storeRun p) (c.body p) s with
      | .ok _ s' => callsRun cs s'
      | _ => none
    else none

theorem exec_bootRun {img : ℕ → Block} (h : bootRun img = some s) :
    Exec (store 0) boot (.start img) (.ok () s) := by
  have hex := exec_run (store_storeRun 0) boot (.start img)
  unfold bootRun at h
  split at h
  · rename_i hrun
    obtain rfl := Option.some.inj h
    rw [hrun] at hex
    exact hex
  · cases h

theorem Reach.callsRun {img : ℕ → Block} {cs : List (ProcId × Call)} {s' : FsSt}
    (hr : Reach img s) (h : callsRun cs s = some s') : Reach img s' := by
  induction cs generalizing s with
  | nil =>
    obtain rfl := Option.some.inj h
    exact hr
  | cons x cs ih =>
    obtain ⟨p, c⟩ := x
    have hex := exec_run (store_storeRun p) (c.body p) s
    rw [Fs.callsRun] at h
    split at h
    · rename_i hen
      split at h
      · rename_i r s₁ hrun
        rw [hrun] at hex
        exact ih (.step hr ⟨p, c, r, hen, hex⟩) h
      · cases h
    · cases h

/-- A state after calls, found by evaluation, is reached. -/
theorem exists_reach (img : ℕ → Block) (cs : List (ProcId × Call)) (P : FsSt → Bool)
    (h : ((bootRun img).bind (callsRun cs)).any P = true) : ∃ s, Reach img s ∧ P s = true := by
  cases hs : (bootRun img).bind (callsRun cs) with
  | none =>
    rw [hs] at h
    cases h
  | some s =>
    rw [hs] at h
    obtain ⟨s₀, hb, hc⟩ := Option.bind_eq_some_iff.1 hs
    exact ⟨s, Reach.callsRun (.boot (exec_bootRun hb)) hc, h⟩

/-- A call that may be made returns, with a value and a state that pass a test. -/
def returns (p : ProcId) (c : Call) (P : FsSt → ℤ → FsSt → Bool) (s : FsSt) : Bool :=
  decide (c.Enabled s.mem p) && match run (storeRun p) (c.body p) s with
    | .ok r s' => P s r s'
    | _ => false

/-- A call that may be made ends in a panic. -/
def panics (p : ProcId) (c : Call) (msg : String) (s : FsSt) : Bool :=
  decide (c.Enabled s.mem p) && match run (storeRun p) (c.body p) s with
    | .panic m => decide (m = msg)
    | _ => false

theorem exec_of_returns {c : Call} {P : FsSt → ℤ → FsSt → Bool} (h : returns p c P s = true) :
    c.Enabled s.mem p ∧ ∃ r s', Exec (store p) (c.body p) s (.ok r s') ∧ P s r s' = true := by
  obtain ⟨hen, h⟩ := Bool.and_eq_true_iff.1 h
  have hex := exec_run (store_storeRun p) (c.body p) s
  split at h
  · rename_i r s' hrun
    rw [hrun] at hex
    exact ⟨of_decide_eq_true hen, r, s', hex, h⟩
  · cases h

theorem exec_of_panics {c : Call} {msg : String} (h : panics p c msg s = true) :
    c.Enabled s.mem p ∧ Exec (store p) (c.body p) s (.panic msg) := by
  obtain ⟨hen, h⟩ := Bool.and_eq_true_iff.1 h
  have hex := exec_run (store_storeRun p) (c.body p) s
  split at h
  · rename_i m hrun
    rw [hrun, of_decide_eq_true h] at hex
    exact ⟨of_decide_eq_true hen, hex⟩
  · cases h

end Fs

end Xv6
