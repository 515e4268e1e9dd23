import Xv6.Block.Log
import Xv6.Fs.Tables

/-!
# In the middle of a call

`During sb t s T V h` says that `s` is a state in the middle of a call of `t` that holds `h`: the
volume is `V`, the tables other than the inode table are `T`, the counts of references are exact,
and the blocks logged since `begin_op` are within what `h` allows. For each function of `fs.c` there
is a rule that says how it changes `h`, `T` and `V`. A panic that a rule does not exclude is one of
`err`; a rule that excludes it under a condition asks for the panic to be one of `err` or for the
condition.
-/

namespace Xv6

open Conc Eff Vol

/-- The entries of a directory are whole, and name inodes of the volume. -/
structure EntsOk (sb : Superblock) (n : Node) : Prop where
  whole : n.type = tDir → n.size % direntSize = 0
  num : n.type = tDir → ∀ k, direntSize * k + direntSize ≤ n.size → (n.ent k).inum < sb.ninodes

theorem EntsOk.of_type_ne {sb : Superblock} {n : Node} (h : n.type ≠ tDir) : EntsOk sb n :=
  ⟨fun ht => absurd ht h, fun ht => absurd ht h⟩

/-- An empty directory has no entries. -/
theorem EntsOk.of_size {sb : Superblock} {n : Node} (h : n.size = 0) : EntsOk sb n := by
  refine ⟨fun _ => by rw [h, Nat.zero_mod], fun _ k hk => ?_⟩
  rw [h] at hk
  simp only [direntSize] at hk
  omega

/-- A property of nodes that is one of the contents of directories. -/
class OfDirs (P : Node → Prop) : Prop where
  of_type_ne : ∀ {n : Node}, n.type ≠ tDir → P n
  of_size : ∀ {n : Node}, n.size = 0 → P n

instance (sb : Superblock) : OfDirs (EntsOk sb) := ⟨EntsOk.of_type_ne, EntsOk.of_size⟩

/-- The tables and the volume in the middle of a call, with `P` of every node. -/
structure CoreIn (P : Node → Prop) (sb : Superblock) (t : Tid) (T : Tab) (m : Mem) (V : Vol)
    (h : Hand) : Prop where
  super : m.sb = sb
  tab : m.tab = T
  ok : VolOk sb V
  ents : ∀ j, P (V.node j)
  slots : Slots sb t T m.itable V h
  files : Files T h

/-- The tables and the volume in the middle of a call. -/
abbrev Core (sb : Superblock) (t : Tid) (T : Tab) (m : Mem) (V : Vol) (h : Hand) : Prop :=
  CoreIn (EntsOk sb) sb t T m V h

/-- The blocks logged are within what the call may have logged. -/
structure Paid (sb : Superblock) (s : FsSt) (h : Hand) : Prop where
  wrote : ∃ D : Finset ℕ, D.card ≤ h.data ∧ ∀ b ∈ s.wrote, b ∈ D ∨
    (∃ a < sb.size, b = bblock a sb) ∨ ∃ i ∈ h.inos, b = iblock i sb
  spent : h.bound.when → s.spent ≤ h.bound.peak
  ops : s.outstanding = h.op.toNat

namespace Paid

variable {sb : Superblock} {s s' : FsSt} {h h' : Hand} {D B I : Finset ℕ}

theorem logs (hp : Paid sb s h) (hl : Logs sb s s' D B I) (hd : h.data + D.card ≤ h'.data)
    (hi : h.inos ⊆ h'.inos) (hI : I ⊆ h'.inos) (hb : h'.bound = h.bound) (ho : h'.op = h.op) :
    Paid sb s' h' := by
  obtain ⟨E, hE, hw⟩ := hp.wrote
  refine ⟨⟨E ∪ D, (Finset.card_union_le _ _).trans (by omega), fun b hb => ?_⟩, ?_, ?_⟩
  · rcases hl.wrote b hb with hb | hb | ⟨a, ha, rfl⟩ | ⟨i, hi', rfl⟩
    · rcases hw b hb with hb | hb | ⟨i, hi', rfl⟩
      · exact .inl (Finset.mem_union_left _ hb)
      · exact .inr (.inl hb)
      · exact .inr (.inr ⟨i, hi hi', rfl⟩)
    · exact .inl (Finset.mem_union_right _ hb)
    · exact .inr (.inl ⟨a, hl.bits a ha, rfl⟩)
    · exact .inr (.inr ⟨i, hI hi', rfl⟩)
  · rw [hl.spent, hb]
    exact hp.spent
  · rw [hl.ops, ho]
    exact hp.ops

/-- Nothing is logged. -/
theorem keep (hp : Paid sb s h) (hl : Logs sb s s' ∅ ∅ ∅) (hd : h'.data = h.data)
    (hi : h'.inos = h.inos) (hb : h'.bound = h.bound) (ho : h'.op = h.op) : Paid sb s' h' :=
  hp.logs hl (by simp [hd]) (by rw [hi]) (Finset.empty_subset _) hb ho

/-- A transaction is open. -/
theorem outstanding_pos (hp : Paid sb s h) (hop : h.op = true) : 0 < s.outstanding := by
  rw [hp.ops, hop]
  exact Nat.one_pos

/-- With one block of the free map, `n` data blocks and the blocks of the inodes are all. -/
theorem card_le (hp : Paid sb s h) (hsize : sb.size ≤ bpb) :
    s.wrote.card ≤ h.data + h.inos.card + 1 := by
  obtain ⟨D, hD, hw⟩ := hp.wrote
  have hsub : s.wrote ⊆ insert sb.bmapstart (D ∪ h.inos.image fun i => iblock i sb) := by
    intro b hb
    rcases hw b hb with hb | ⟨a, ha, rfl⟩ | ⟨i, hi, rfl⟩
    · exact Finset.mem_insert_of_mem (Finset.mem_union_left _ hb)
    · refine Finset.mem_insert.2 (.inl ?_)
      simp only [bblock, bpb] at *
      omega
    · exact Finset.mem_insert_of_mem (Finset.mem_union_right _ (Finset.mem_image_of_mem _ hi))
  have h₁ := Finset.card_le_card hsub
  have h₂ := Finset.card_insert_le sb.bmapstart (D ∪ h.inos.image fun i => iblock i sb)
  have h₃ := Finset.card_union_le D (h.inos.image fun i => iblock i sb)
  have h₄ : (h.inos.image fun i => iblock i sb).card ≤ h.inos.card := Finset.card_image_le
  omega

end Paid

/-- A state in the middle of a call, with `P` of every node. -/
def DuringIn (P : Node → Prop) (sb : Superblock) (t : Tid) (s : FsSt) (T : Tab) (V : Vol) (h : Hand) :
    Prop :=
  ∃ m, Shows s m V ∧ CoreIn P sb t T m V h ∧ Paid sb s h

/-- A state in the middle of a call. -/
abbrev During (sb : Superblock) (t : Tid) (s : FsSt) (T : Tab) (V : Vol) (h : Hand) : Prop :=
  DuringIn (EntsOk sb) sb t s T V h

namespace DuringIn

variable {P : Node → Prop} {sb : Superblock} {t : Tid} {s s' : FsSt} {T : Tab} {V : Vol} {h : Hand}

theorem ok (hd : DuringIn P sb t s T V h) : VolOk sb V := by
  obtain ⟨m, -, hc, -⟩ := hd
  exact hc.ok

theorem files (hd : DuringIn P sb t s T V h) : Files T h := by
  obtain ⟨m, -, hc, -⟩ := hd
  exact hc.files

theorem used_of_mem (hd : DuringIn P sb t s T V h) {x : InodeId × ℕ} (hx : x ∈ h.refs) :
    h.Used T x.1 := by
  obtain ⟨m, -, hc, -⟩ := hd
  exact hc.slots.used_of_mem hx

theorem used_of_lock (hd : DuringIn P sb t s T V h) {x : InodeId × ℕ} (hx : x ∈ h.locks) :
    h.Used T x.1 := by
  obtain ⟨m, -, hc, -⟩ := hd
  exact (hc.slots.held x hx).1

/-- The order of references and locks does not matter, and a call may do less than it may. -/
theorem weaken {h' : Hand} (hd : DuringIn P sb t s T V h) (hr : h.refs.Perm h'.refs)
    (hl : h.locks.Perm h'.locks) (hpins : ∀ j ∈ h.pins, 0 < h.count j → j ∈ h'.pins)
    (hdata : h.data ≤ h'.data) (hinos : h.inos ⊆ h'.inos)
    (hh : h' = ⟨h'.refs, h'.locks, h'.pins, h.fresh, h.owed, h.files, h.fowed, h'.data, h'.inos, h.op,
      h.bound⟩) : DuringIn P sb t s T V h' := by
  obtain ⟨m, hs, hc, hp⟩ := hd
  refine ⟨m, hs, ⟨hc.super, hc.tab, hc.ok, hc.ents, hc.slots.reorder hr hl hpins (by rw [hh])
    (by rw [hh]), hc.files.congr (by rw [hh]) (by rw [hh])⟩, ?_, by rw [hh]; exact hp.spent,
    by rw [hh]; exact hp.ops⟩
  obtain ⟨D, hD, hw⟩ := hp.wrote
  refine ⟨D, hD.trans hdata, fun b hb => (hw b hb).imp_right fun h => h.imp_right ?_⟩
  rintro ⟨i, hi, rfl⟩
  exact ⟨i, hinos hi, rfl⟩

/-- A call may log a further entry of a directory. -/
theorem entry (hd : DuringIn P sb t s T V h) (d : ℕ) : DuringIn P sb t s T V (h.entry d) :=
  hd.weaken (List.Perm.refl _) (List.Perm.refl _) (fun _ hj _ => hj) (Nat.le_add_right _ _)
    (Finset.subset_insert _ _) rfl

/-- A locked inode is allocated. -/
theorem type_ne (hd : DuringIn P sb t s T V h) {x : InodeId × ℕ} (hx : x ∈ h.locks) :
    (V.ino x.2).type ≠ 0 := by
  obtain ⟨m, -, hc, -⟩ := hd
  obtain ⟨hu, hv⟩ := hc.slots.held x hx
  have := (hc.slots.copy x.1 ((hc.slots.used_iff _).1 hu) hv).2
  rwa [hc.slots.name x (.inr hx)] at this

theorem lt_of_lock (hd : DuringIn P sb t s T V h) {x : InodeId × ℕ} (hx : x ∈ h.locks) :
    0 < x.2 ∧ x.2 < sb.ninodes := by
  obtain ⟨m, -, hc, -⟩ := hd
  have := (hc.slots.named x.1 ((hc.slots.used_iff _).1 (hc.slots.held x hx).1)).2
  rwa [hc.slots.name x (.inr hx)] at this

end DuringIn

namespace Fs

variable {α : Type} {P : Node → Prop} {err : String → Prop} {sb : Superblock} {t : Tid} {s : FsSt} {T : Tab} {V : Vol} {h : Hand}
  {ip jp : InodeId} {i : ℕ}

/-! ## Reads of the tables -/

theorem gets_during {f : Mem → α} {Q : α → FsSt → Prop} (hd : DuringIn P sb t s T V h)
    (hQ : ∀ m, CoreIn P sb t T m V h → Q (f m) s) : wp (store t) err (gets f) Q s := by
  obtain ⟨m, hs, hc, -⟩ := hd
  exact gets_wp hs (hQ m hc)

/-- The copy of a locked inode. -/
theorem dinode_during {Q : Dinode → FsSt → Prop} (hd : DuringIn P sb t s T V h)
    (hx : (ip, i) ∈ h.locks) (hQ : Q (V.ino i) s) : wp (store t) err (dinode ip) Q s := by
  refine gets_during hd fun m hc => ?_
  obtain ⟨hu, hv⟩ := hc.slots.held _ hx
  have hcopy := (hc.slots.copy ip ((hc.slots.used_iff _).1 hu) hv).1
  rw [hc.slots.name (ip, i) (.inr hx)] at hcopy
  rw [hcopy]
  exact hQ

/-- A slot's device and number. -/
theorem Core.named {m : Mem} (hc : CoreIn P sb t T m V h) (hu : h.Used T ip) :
    (m.itable ip).dev = rootdev ∧ 0 < (m.itable ip).inum ∧ (m.itable ip).inum < sb.ninodes :=
  hc.slots.named ip ((hc.slots.used_iff ip).1 hu)

/-! ## Sections of the inode table -/

/-- A section over the tables. -/
theorem section_core {f : Action Mem α} {m : Mem} {Q : α → FsSt → Prop} (hs : Shows s m V)
    (hc : CoreIn P sb t T m V h) (hp : Paid sb s h)
    (hok : ∀ a m', f t m = .ok a m' → m'.sb = m.sb ∧ ∃ h', Slots sb t m'.tab m'.itable V h' ∧
      Files m'.tab h' ∧ h.LogEq h' ∧
      ∀ s', DuringIn P sb t s' m'.tab V h' → Logs sb s s' ∅ ∅ ∅ → Q a s')
    (hpanic : ∀ msg, f t m = .panic msg → err msg) : wp (store t) err (mem f) Q s := by
  refine mem_wp hs (fun a m' he => ?_) hpanic
  obtain ⟨hsb, h', hsl, hf, hl, hQ⟩ := hok a m' he
  refine ⟨hsb, fun s' hs' hlog => ?_⟩
  rw [hc.super] at hlog
  exact hQ s' ⟨m', hs', ⟨hsb.trans hc.super, rfl, hc.ok, hc.ents, hsl, hf⟩,
    hp.keep hlog hl.data hl.inos hl.bound hl.op⟩ hlog

/-- A section that changes slots of the inode table only. -/
theorem slots_during {f : Action Mem α} {Q : α → FsSt → Prop} (hd : DuringIn P sb t s T V h)
    (hok : ∀ m a m', CoreIn P sb t T m V h → f t m = .ok a m' →
      m'.sb = m.sb ∧ m'.tab = m.tab ∧ ∃ h', Slots sb t T m'.itable V h' ∧
        h' = { h with refs := h'.refs, locks := h'.locks } ∧
        ∀ s', DuringIn P sb t s' T V h' → Logs sb s s' ∅ ∅ ∅ → Q a s')
    (hpanic : ∀ m msg, CoreIn P sb t T m V h → f t m = .panic msg → err msg) :
    wp (store t) err (mem f) Q s := by
  obtain ⟨m, hs, hc, hp⟩ := hd
  refine section_core hs hc hp (fun a m' he => ?_) fun msg he => hpanic m msg hc he
  obtain ⟨hsb, htab, h', hsl, hh, hQ⟩ := hok m a m' hc he
  rw [htab, hc.tab]
  exact ⟨hsb, h', hsl, hc.files.congr (by rw [hh]) (by rw [hh]),
    ⟨by rw [hh], by rw [hh], by rw [hh], by rw [hh]⟩, hQ⟩

/-- `iget` has returned slot `ip`: one in use that has the inode, or one that was free. -/
inductive Got (dev inum : ℕ) (m : Mem) (ip : InodeId) : Mem → Prop
  | held (hpos : 0 < (m.itable ip).ref) (hnum : (m.itable ip).inum = inum) :
      Got dev inum m ip (m.setInode ip { m.itable ip with ref := (m.itable ip).ref + 1 })
  | fresh (hzero : (m.itable ip).ref = 0)
      (hnew : ∀ j, 0 < (m.itable j).ref → (m.itable j).dev = dev → (m.itable j).inum ≠ inum) :
      Got dev inum m ip
        (m.setInode ip { m.itable ip with dev := dev, inum := inum, ref := 1, valid := false })

theorem igetSection_ok {m m' : Mem} {dev inum : ℕ} (h : igetSection dev inum t m = .ok ip m') :
    Got dev inum m ip m' := by
  unfold igetSection at h
  split at h
  · next i hi =>
    obtain ⟨rfl, rfl⟩ := Outcome.ok.inj h
    have hfound := List.find?_some hi
    obtain ⟨hpos, -, hnum⟩ := of_decide_eq_true hfound
    exact .held hpos hnum
  · next hnone =>
    split at h
    · next i hi =>
      obtain ⟨rfl, rfl⟩ := Outcome.ok.inj h
      have hfound := List.find?_some hi
      refine .fresh (of_decide_eq_true hfound) fun j hj hdev hnum => ?_
      exact List.find?_eq_none.1 hnone j (List.mem_finRange j) (decide_eq_true ⟨hj, hdev, hnum⟩)
    · cases h

/-- The slots in use keep their inodes. -/
theorem Got.inum_eq {m m' : Mem} {dev inum : ℕ} (hg : Got dev inum m ip m') (hj : 0 < (m.itable jp).ref) :
    (m'.itable jp).inum = (m.itable jp).inum := by
  by_cases he : jp = ip
  · subst he
    cases hg with
    | held hpos hnum => rw [Mem.setInode_itable_self]
    | fresh hzero => omega
  · cases hg with
    | held hpos hnum => rw [Mem.setInode_itable_of_ne he]
    | fresh hzero => rw [Mem.setInode_itable_of_ne he]

theorem iget_exec {s' : FsSt} {dev inum : ℕ} (hex : Exec (store t) (iget dev inum) s (.ok ip s')) :
    ∃ m, Got dev inum s.mem ip m ∧ s' = s.withMem m := by
  cases hex with
  | ok he hk =>
    cases hk
    have he' : Outcome.ok ip s' = liftMem s (igetSection dev inum t s.mem) := he
    cases hf : igetSection dev inum t s.mem with
    | ok a m =>
      rw [hf] at he'
      obtain ⟨rfl, rfl⟩ := Outcome.ok.inj he'
      exact ⟨m, igetSection_ok hf, rfl⟩
    | block =>
      rw [hf] at he'
      cases he'
    | panic msg =>
      rw [hf] at he'
      cases he'

theorem igetSection_panic {m : Mem} {dev inum : ℕ} {msg : String}
    (h : igetSection dev inum t m = .panic msg) :
    msg = "iget: no inodes" ∧ ∀ i, 0 < (m.itable i).ref := by
  unfold igetSection at h
  split at h
  · cases h
  · split at h
    · cases h
    · next hnone =>
      refine ⟨(Outcome.panic.inj h).symm, fun i => Nat.pos_of_ne_zero fun h0 => ?_⟩
      have hi := List.find?_eq_none.1 hnone i (List.mem_finRange i)
      exact hi (decide_eq_true h0)

/-- `iget` of an inode: a slot that has it already, or one that is free. -/
theorem iget_core {m : Mem} {Q : InodeId → FsSt → Prop} (hs : Shows s m V) (hc : CoreIn P sb t T m V h)
    (hp : Paid sb s h) (hi : 0 < i) (hlt : i < sb.ninodes)
    (hfull : (∀ j, 0 < (m.itable j).ref) → err "iget: no inodes")
    (hQ : ∀ ip s', DuringIn P sb t s' T V (h.take ip i) →
      (m.itable ip).ref = 0 ∨ (m.itable ip).inum = i → Q ip s') :
    wp (store t) err (iget rootdev i) Q s := by
  obtain rfl := hc.tab
  refine section_core hs hc hp (fun ip m' he => ?_) fun msg he => ?_
  · cases igetSection_ok he with
    | held hpos hnum =>
      have hsl := hc.slots.hold ((hc.slots.used_iff ip).2 hpos) Mem.setInode_itable_self
        fun j hj => Mem.setInode_itable_of_ne hj
      rw [hnum] at hsl
      exact ⟨rfl, _, hsl, hc.files.congr rfl rfl, ⟨rfl, rfl, rfl, rfl⟩, fun s' hd' _ => hQ ip s' hd' (.inr hnum)⟩
    | fresh hzero hnew =>
      have hsl := hc.slots.enter hzero hi hlt (fun j hj => hnew j hj (hc.slots.named j hj).1)
        Mem.setInode_itable_self fun j hj => Mem.setInode_itable_of_ne hj
      exact ⟨rfl, _, hsl, hc.files.congr rfl rfl, ⟨rfl, rfl, rfl, rfl⟩, fun s' hd' _ => hQ ip s' hd' (.inl hzero)⟩
  · obtain ⟨rfl, hall⟩ := igetSection_panic he
    exact hfull hall

/-- `iget` panics only when every slot is in use. -/
theorem iget_used {Q : InodeId → FsSt → Prop} (hd : DuringIn P sb t s T V h) (hi : 0 < i)
    (hlt : i < sb.ninodes) (hfull : (∀ j, h.Used T j) → err "iget: no inodes")
    (hQ : ∀ ip s', DuringIn P sb t s' T V (h.take ip i) →
      (∀ j, h.Used T j → (s'.mem.itable j).inum = (s.mem.itable j).inum) → Q ip s') :
    wp (store t) err (iget rootdev i) Q s := by
  obtain ⟨m, hs, hc, hp⟩ := hd
  obtain rfl := hs.mem
  refine wp_of_exec (iget_core hs hc hp hi hlt (fun hall => hfull fun j => (hc.slots.used_iff j).2 (hall j))
    fun ip s' hd' _ hex => hQ ip s' hd' fun j hj => ?_)
  obtain ⟨m, hg, rfl⟩ := iget_exec hex
  exact hg.inum_eq ((hc.slots.used_iff j).1 hj)

/-- There is a free slot when there is room. -/
theorem Core.full {m : Mem} {E : Prop} (hc : CoreIn P sb t T m V h)
    (hroom : E ∨ T.busy + h.refs.length < ninode) (hall : ∀ j, 0 < (m.itable j).ref) : E := by
  refine hroom.resolve_right fun hlt => ?_
  have hle := hc.slots.ninode_le hall
  omega

theorem iget_during {Q : InodeId → FsSt → Prop} (hd : DuringIn P sb t s T V h) (hi : 0 < i)
    (hlt : i < sb.ninodes) (hroom : err "iget: no inodes" ∨ T.busy + h.refs.length < ninode)
    (hQ : ∀ ip s', DuringIn P sb t s' T V (h.take ip i) → Q ip s') :
    wp (store t) err (iget rootdev i) Q s := by
  obtain ⟨m, hs, hc, hp⟩ := hd
  exact iget_core hs hc hp hi hlt (Core.full hc hroom) fun ip s' hd' _ => hQ ip s' hd'

theorem idupCwd_during {p : ProcId} {Q : InodeId → FsSt → Prop} (hd : DuringIn P sb t s T V h)
    (howed : h.owed = [])
    (hQ : ∀ ip i s', (T.proc p).cwd = some ip → (V.ino i).type ≠ 0 →
      DuringIn P sb t s' T V (h.take ip i) → Q ip s') :
    wp (store t) err (mem (idupCwd p)) Q s := by
  refine slots_during hd (fun m a m' hc he => ?_) fun m msg _ he => ?_
  · unfold idupCwd at he
    split at he
    · rename_i k hk
      obtain ⟨rfl, rfl⟩ := Outcome.ok.inj he
      have hcwd : (T.proc p).cwd = some k := by
        rw [← hc.tab]
        exact hk
      have hlive : h.owed.count k < T.users k := by
        rw [howed]
        exact Tab.users_pos_of_cwd hcwd
      exact ⟨rfl, rfl, _, hc.slots.hold (hlive.trans_le (Nat.le_add_right _ _))
        Mem.setInode_itable_self fun j hj => Mem.setInode_itable_of_ne hj, rfl,
        fun s' hd' _ => hQ k (m.itable k).inum s' hcwd (hc.slots.live k hlive) hd'⟩
    · cases he
  · unfold idupCwd at he
    split at he <;> cases he

theorem iunlock_during {Q : Unit → FsSt → Prop} (hd : DuringIn P sb t s T V (h.lock ip i))
    (hQ : ∀ s', DuringIn P sb t s' T V h → Logs sb s s' ∅ ∅ ∅ → Q () s') : wp (store t) err (iunlock ip) Q s := by
  refine slots_during hd (fun m a m' hc he => ?_) fun m msg hc he => ?_
  · split at he
    · cases he
    · obtain ⟨rfl, rfl⟩ := Outcome.ok.inj he
      exact ⟨rfl, rfl, h, hc.slots.release Mem.setInode_itable_self
        fun j hj => Mem.setInode_itable_of_ne hj, rfl, hQ⟩
  · split at he
    · rename_i hbad
      have hused := (hc.slots.used_iff ip).1 (hc.slots.held (ip, i) List.mem_cons_self).1
      have hlock := hc.slots.lock ip
      rw [if_pos ⟨(ip, i), List.mem_cons_self, rfl⟩] at hlock
      rcases hbad with hne | hlt
      · exact absurd hlock hne
      · omega
    · cases he

/-- `ilock`: the inode is locked, its copy is there, and it is allocated. -/
theorem ilock_during {Q : Unit → FsSt → Prop} (hd : DuringIn P sb t s T V h) (hu : h.Used T ip)
    (hlive : err "ilock: no type" ∨ h.owed.count ip < T.users ip ∨
      ∃ i, (ip, i) ∈ h.refs ∧ (V.ino i).type ≠ 0)
    (hQ : ∀ s' i, DuringIn P sb t s' T V (h.lock ip i) → (∀ x ∈ h.refs, x.1 = ip → x.2 = i) →
      Logs sb s s' ∅ ∅ ∅ → Q () s') :
    wp (store t) err (ilock ip) Q s := by
  obtain ⟨m, hs, hc, hp⟩ := hd
  obtain rfl := hc.super
  have hnum := (hc.slots.named ip ((hc.slots.used_iff ip).1 hu)).2.2
  have hname : ∀ x ∈ h.refs, x.1 = ip → x.2 = (m.itable ip).inum := fun x hx e => by
    rw [← e]
    exact (hc.slots.name x (.inl hx)).symm
  refine wp_bind (mem_wp hs (fun a m' he => ?_) fun msg he => ?_)
  · unfold acquireInode at he
    split at he
    · cases he
    · split at he
      · cases he
      · rename_i hlock
        obtain ⟨-, rfl⟩ := Outcome.ok.inj he
        refine ⟨rfl, fun s₁ h₁ hlog₁ => ?_⟩
        have hend : ∀ s' m', Shows s' m' V → Logs m.sb s s' ∅ ∅ ∅ →
            m' = m.setInode ip { m.itable ip with
              lock := some t, valid := true, d := V.ino (m.itable ip).inum } →
            (V.ino (m.itable ip).inum).type ≠ 0 → Q () s' := by
          rintro s' m' hs' hlog rfl ht
          refine hQ s' _ ⟨_, hs', ⟨rfl, hc.tab, hc.ok, hc.ents, hc.slots.acquire hu hlock
            Mem.setInode_itable_self ht fun j hj => Mem.setInode_itable_of_ne hj,
            hc.files.congr rfl rfl⟩, hp.keep hlog rfl rfl rfl rfl⟩ hname hlog
        refine wp_bind (gets_wp h₁ ?_)
        rw [Mem.setInode_itable_self]
        by_cases hv : (m.itable ip).valid = false
        · rw [if_pos hv]
          refine wp_bind (gets_wp h₁ ?_)
          refine wp_bind (bread_wp_of_eq (h₁.tight _ (h₁.layout.iblock_lt_dataStart hnum)) ?_)
          refine wp_bind (setDinode_wp h₁ fun s₂ h₂ hlog₂ => ?_)
          refine wp_bind (brelse_wp ?_)
          refine wp_bind (modify_wp h₂ rfl fun s₃ h₃ hlog₃ => ?_)
          have hino := h₁.ino_eq hnum
          simp only [Mem.setInode_sb, Mem.setInode_itable_self, Mem.setInode_setInode] at h₃ hino
          rw [hino] at h₃
          show wp (store t) err (if (getDinode (s₁.logged (iblock (m.itable ip).inum m.sb))
            ((m.itable ip).inum % ipb)).type = 0 then panic "ilock: no type" else pure ()) Q s₃
          by_cases ht : (V.ino (m.itable ip).inum).type = 0
          · rw [if_pos ((congrArg Dinode.type hino).trans ht)]
            refine panic_wp (hlive.resolve_right ?_)
            rintro (hl | ⟨i, hi, hti⟩)
            · exact hc.slots.live ip hl ht
            · obtain rfl := hname (ip, i) hi rfl
              exact hti ht
          · rw [if_neg fun h0 => ht ((congrArg Dinode.type hino).symm.trans h0)]
            exact wp_pure (hend s₃ _ h₃ ((hlog₁.trans_left hlog₂).trans_left hlog₃) rfl ht)
        · rw [if_neg hv]
          rw [Bool.not_eq_false] at hv
          obtain ⟨hcopy, ht⟩ := hc.slots.copy ip ((hc.slots.used_iff ip).1 hu) hv
          refine wp_pure (hend s₁ _ h₁ hlog₁ ?_ ht)
          rw [← hcopy, ← hv]
  · unfold acquireInode at he
    split at he
    · have := (hc.slots.used_iff ip).1 hu
      omega
    · split at he <;> cases he

/-- `ilock` of an inode that the call has a reference to. -/
theorem ilock_ref {Q : Unit → FsSt → Prop} (hd : DuringIn P sb t s T V h) (hx : (ip, i) ∈ h.refs)
    (hlive : err "ilock: no type" ∨ (V.ino i).type ≠ 0)
    (hQ : ∀ s', DuringIn P sb t s' T V (h.lock ip i) → Q () s') : wp (store t) err (ilock ip) Q s := by
  refine ilock_during hd (hd.used_of_mem hx) (hlive.imp_right fun ht => .inr ⟨i, hx, ht⟩)
    fun s' i' hd' hname _ => ?_
  obtain rfl := hname (ip, i) hx rfl
  exact hQ s' hd'

/-! ## Changes of a locked inode -/

/-- A locked inode is seen through its copy. -/
theorem Core.views {m : Mem} (hc : CoreIn P sb t T m V h) (hs : Shows s m V) (hx : (ip, i) ∈ h.locks) :
    (m.itable ip).inum = i ∧ Views s m ip V ∧ i < sb.ninodes ∧ (V.ino i).type ≠ 0 := by
  obtain ⟨hu, hv⟩ := hc.slots.held _ hx
  have hr := (hc.slots.used_iff _).1 hu
  have hi := hc.slots.name (ip, i) (.inr hx)
  obtain ⟨hcopy, ht⟩ := hc.slots.copy _ hr hv
  have hlt := (hc.slots.named _ hr).2.2
  simp only at hi hcopy ht hlt
  refine ⟨hi, .of_shows hs hcopy, ?_, ?_⟩
  · rwa [hi] at hlt
  · rwa [hi] at ht

/-- The state after a change of a locked inode. -/
theorem Core.change {m : Mem} {s' : FsSt} {W : Vol} {h' : Hand} (hc : CoreIn P sb t T m V h)
    (hx : (ip, i) ∈ h.locks) (hs : Shows s' (m.setD ip (W.ino i)) W) (ok : VolOk sb W)
    (hino : ∀ j, j ≠ i → W.ino j = V.ino j) (hnode : ∀ j, j ≠ i → W.node j = V.node j)
    (htype : (W.ino i).type = (V.ino i).type) (hents : P (W.node i))
    (hlink : (W.ino i).nlink = 0 → (V.ino i).nlink = 0 ∧ h'.fresh = h.fresh ∨
      ip ∈ h'.pins ∧ 0 < h.count ip)
    (hh : h' = { h with pins := h'.pins, fresh := h'.fresh, data := h'.data, inos := h'.inos })
    (hpins : ∀ j ∈ h.pins, j ∈ h'.pins) (hfresh : ∀ j ∈ h.fresh, j ≠ i → j ∈ h'.fresh)
    (hp : Paid sb s' h') : DuringIn P sb t s' T W h' := by
  refine ⟨_, hs, ⟨hc.super, hc.tab, ok, fun j => ?_, hc.slots.change hx hino htype hlink hh hpins
    hfresh Mem.setD_itable_self fun j hj => Mem.setD_itable_of_ne hj,
    hc.files.congr (by rw [hh]) (by rw [hh])⟩, hp⟩
  by_cases hj : j = i
  · rw [hj]
    exact hents
  · rw [hnode j hj]
    exact hc.ents j

/-- Entries do not depend on the link count. -/
theorem ents_setIno {d : Dinode} (hents : EntsOk sb (V.node i)) (ht : d.type = (V.ino i).type)
    (hs : d.size = (V.ino i).size) (ha : d.addrs = (V.ino i).addrs) :
    EntsOk sb ((V.setIno i d).node i) := by
  by_cases h0 : (V.ino i).type = 0
  · rw [node_of_eq (by simpa [ht] using h0)]
    exact .of_type_ne (by decide)
  · have hnode : ((V.setIno i d).node i).data = (V.node i).data ∧
        ((V.setIno i d).node i).size = (V.node i).size := by
      rw [node_of_ne (by simpa [ht] using h0), node_of_ne h0]
      simp only [setIno_ino_self, hs, byte_setIno_of_addrs ha, and_self]
    have htype : ((V.setIno i d).node i).type = (V.node i).type := by
      rw [node_type, setIno_ino_self, ht, ← node_type]
    refine ⟨fun hd => ?_, fun hd k hk => ?_⟩
    · rw [hnode.2]
      exact hents.whole (htype ▸ hd)
    · rw [hnode.2] at hk
      unfold Node.ent
      rw [hnode.1]
      exact hents.num (htype ▸ hd) k hk

/-- A store to an inode and `iupdate`, before `k`. -/
theorem update_bind {f : Dinode → Dinode} {k : Unit → Fs α} {Q : α → FsSt → Prop} (h' : Hand)
    (hd : During sb t s T V h) (hop : h.op = true) (hx : (ip, i) ∈ h.locks)
    (htype : (f (V.ino i)).type = (V.ino i).type) (hsize : (f (V.ino i)).size = (V.ino i).size)
    (haddrs : (f (V.ino i)).addrs = (V.ino i).addrs) (hfits : (V.ino i).Fits → (f (V.ino i)).Fits)
    (hlink : (f (V.ino i)).nlink = 0 → ip ∈ h'.pins ∧ 0 < h.count ip)
    (hh : h' = { h with pins := h'.pins, fresh := h'.fresh, inos := insert i h.inos })
    (hpins : ∀ j ∈ h.pins, j ∈ h'.pins) (hfresh : ∀ j ∈ h.fresh, j ≠ i → j ∈ h'.fresh)
    (hQ : ∀ s', During sb t s' T (V.setIno i (f (V.ino i))) h' → wp (store t) err (k ()) Q s') :
    wp (store t) err (setDinode ip f >>= fun _ => iupdate ip >>= k) Q s := by
  obtain ⟨m, hs, hc, hp⟩ := hd
  obtain rfl := hc.super
  obtain ⟨hi, hv, hnum, ht⟩ := Core.views hc hs hx
  refine wp_bind (setDinode_views hv fun s₁ h₁ hlog₁ => ?_)
  rw [hi] at h₁
  refine wp_bind (iupdate_views h₁ (hlog₁.still (hp.outstanding_pos hop)) (by rw [hi]; exact hnum) ?_
    fun s₂ h₂ hlog₂ => ?_)
  · rw [hi, setIno_ino_self]
    exact hfits hs.fits
  rw [hi] at h₂ hlog₂
  refine hQ s₂ (Core.change hc hx h₂ ?_ (fun j hj => setIno_ino_of_ne hj)
    (fun j hj => node_setIno_of_ne hj) (by rw [setIno_ino_self, htype])
    (ents_setIno (hc.ents i) htype hsize haddrs)
    (fun hn => .inr (hlink (by simpa using hn))) (by rw [hh]) hpins hfresh ?_)
  · have hfill := hc.ok.filled i ht
    refine hc.ok.setIno ht (by rw [htype]; exact ht) (fun hd => by rwa [htype] at hd) haddrs
      (by rw [hsize]; exact hfill.size) fun k hk => hfill.block k (by rwa [hsize] at hk)
  · refine hp.logs (hlog₁.trans_left hlog₂) (by rw [hh]; simp) ?_ ?_ (by rw [hh]) (by rw [hh])
    · rw [hh]
      exact Finset.subset_insert _ _
    · rw [hh]
      exact Finset.singleton_subset_iff.2 (Finset.mem_insert_self _ _)

/-- A store to the link count and `iupdate`, before `k`; the call drops the inode later. -/
theorem nlink_bind {f : ℕ → ℕ} {k : Unit → Fs α} {Q : α → FsSt → Prop} (hd : During sb t s T V h)
    (hop : h.op = true) (hx : (ip, i) ∈ h.locks) (hr : (ip, i) ∈ h.refs)
    (hQ : ∀ s', During sb t s' T
      (V.setIno i { V.ino i with nlink := f (V.ino i).nlink % 2 ^ 16 }) ((h.pin ip).log i) →
      wp (store t) err (k ()) Q s') :
    wp (store t) err (setNlink ip f >>= fun _ => iupdate ip >>= k) Q s := by
  refine update_bind ((h.pin ip).log i) hd hop hx rfl rfl rfl (fun hf => ?_)
    (fun _ => ⟨List.mem_cons_self, Hand.count_pos hr⟩) rfl (fun j hj => List.mem_cons_of_mem _ hj)
    (fun j hj _ => hj) hQ
  exact ⟨hf.type, hf.major, hf.minor, Nat.mod_lt _ (by decide), hf.size, hf.addrs⟩

/-- `readi` of a locked inode. -/
theorem readi_during {dst : Dst} {off n : ℕ} {Q : ℤ × List UInt8 → FsSt → Prop}
    (hd : DuringIn P sb t s T V h) (hx : (ip, i) ∈ h.locks) (hQ : ∀ r, Q r s) :
    wp (store t) err (readi ip dst off n) Q s := by
  obtain ⟨m, hs, hc, -⟩ := hd
  obtain rfl := hc.super
  obtain ⟨hi, hv, -, ht⟩ := Core.views hc hs hx
  exact readi_wp hi hv hc.ok ht fun r _ _ => hQ r

/-- `readi` to the kernel: the bytes of the file, when none of them is newer than the log. -/
theorem readiKernel_during {off n : ℕ} {Q : ℤ × List UInt8 → FsSt → Prop}
    (hd : DuringIn P sb t s T V h) (hx : (ip, i) ∈ h.locks)
    (hQ : ∀ l : List UInt8, l.length ≤ n →
      (off < 2 ^ 32 → n < 2 ^ 32 → Clear V i → l = (V.node i).read off n) → Q (l.length, l) s) :
    wp (store t) err (readi ip .kernel off n) Q s := by
  obtain ⟨m, hs, hc, -⟩ := hd
  obtain rfl := hc.super
  obtain ⟨hi, hv, -, ht⟩ := Core.views hc hs hx
  refine readi_wp hi hv hc.ok ht fun r hlen hread => ?_
  obtain ⟨hr, hle⟩ := hlen (Dst.writable_kernel n)
  have hrr : r = ((r.2.length : ℤ), r.2) := Prod.ext hr rfl
  rw [hrr]
  exact hQ r.2 hle fun ho hn hcl => by rw [hread ho hn hcl (Dst.writable_kernel n)]

/-- `readi` of an entry of a locked directory. -/
theorem readDirent_during {k : ℕ} {Q : Option Dirent → FsSt → Prop} (hd : During sb t s T V h)
    (hx : (ip, i) ∈ h.locks) (htype : (V.ino i).type = tDir) (hk : direntSize * k < (V.ino i).size)
    (hQ : direntSize * k + direntSize ≤ (V.ino i).size → ((V.node i).ent k).inum < sb.ninodes →
      Q (some ((V.node i).ent k)) s) :
    wp (store t) err (readDirent ip (direntSize * k)) Q s := by
  obtain ⟨m, hs, hc, -⟩ := hd
  obtain rfl := hc.super
  obtain ⟨hi, hv, -, ht⟩ := Core.views hc hs hx
  have hnt : (V.node i).type = tDir := by rw [node_type, htype]
  have hsize : (V.node i).size = (V.ino i).size := by rw [node_of_ne ht]
  refine readDirent_wp hi hv hc.ok htype (fun hle => hQ hle ((hc.ents i).num hnt k ?_)) fun hout => ?_
  · rw [hsize]
    exact hle
  · have hwhole := (hc.ents i).whole hnt
    rw [hsize] at hwhole
    simp only [direntSize] at *
    omega

/-- The blocks of a directory have no unlogged stores. -/
theorem During.clear (hd : DuringIn P sb t s T V h) (hdir : (V.ino i).type = tDir) : Clear V i := by
  obtain ⟨m, -, hc, -⟩ := hd
  exact fun x hx => (hc.ok.firm i (by rw [hdir]; decide)).dir hdir x hx

/-- `writei` of a locked inode. -/
theorem writei_during [OfDirs P] {src : Src} {off n : ℕ} {Q : ℤ → FsSt → Prop} (hd : DuringIn P sb t s T V h)
    (hop : h.op = true) (hx : (ip, i) ∈ h.locks) (hsrc : (V.ino i).type = tDir → src.Readable n)
    (hents : (V.ino i).type = tDir → off ≤ (V.ino i).size → ∀ r ≤ n,
      (off % bsize + n ≤ bsize → r = 0 ∨ r = n) → P ((V.node i).write off r src.get))
    (hbad : (V.ino i).size < off ∨ maxfile * bsize < off + n → Q (-1) s)
    (hQ : ∀ s' W (r : ℕ), off ≤ (V.ino i).size → r ≤ n →
      (off % bsize + n ≤ bsize → r = 0 ∨ r = n) →
      DuringIn P sb t s' T W { h with data := h.data + (turns off n + 1), inos := insert i h.inos } →
      W.ino i = { V.ino i with size := max (V.ino i).size (off + r), addrs := (W.ino i).addrs } →
      (∀ j, j ≠ i → W.ino j = V.ino j) → (∀ j, j ≠ i → W.node j = V.node j) →
      (Clear V i → W.node i = (V.node i).write off r src.get) →
      (src.Readable n → r = n ∨ W.Full sb ∧ V.ref i (.ofIndex ((off + r) / bsize)) = 0) →
      WriteLogs sb s s' V W i off n {i} → Q r s') :
    wp (store t) err (writei ip src off n) Q s := by
  obtain ⟨m, hs, hc, hp⟩ := hd
  obtain rfl := hc.super
  obtain ⟨hi, hv, hnum, ht⟩ := Core.views hc hs hx
  refine writei_wp hi hv (hp.outstanding_pos hop) hnum hs.fits hc.ok ht hsrc hbad
    fun s' W r hoff hr hone h' okW hino hnode hself hwrote hread hlogs => ?_
  have hclear : (V.ino i).type = tDir → Clear V i := fun hdir x hx => (hc.ok.firm i ht).dir hdir x hx
  have htype : (W.ino i).type = (V.ino i).type := by rw [hself]
  refine hQ s' W r hoff hr hone (Core.change hc hx h' okW hino hnode htype ?_ (fun hn => ?_) rfl
    (fun _ => id) (fun _ hj _ => hj) ?_) hself hino hnode hwrote
    (fun hs => (hread hs).2) hlogs
  · by_cases hdir : (V.ino i).type = tDir
    · rw [hwrote (hclear hdir)]
      exact hents hdir hoff r hr hone
    · exact OfDirs.of_type_ne (by rw [node_type, htype]; exact hdir)
  · rw [hself] at hn
    exact .inl ⟨hn, rfl⟩
  · obtain ⟨R, S, hl, hR, -⟩ := hlogs
    refine hp.logs hl ?_ (Finset.subset_insert _ _)
      (Finset.singleton_subset_iff.2 (Finset.mem_insert_self _ _)) rfl rfl
    have h₁ := Finset.card_union_le R (only ((W.ino i).addrs 12))
    have h₂ : (only ((W.ino i).addrs 12)).card ≤ 1 := card_only_le
    simp only
    omega

theorem node_size : (V.node i).size = if (V.ino i).type = 0 then 0 else (V.ino i).size := by
  unfold node
  split <;> rfl

/-- `itrunc` of a locked inode. -/
theorem itrunc_during [OfDirs P] {Q : Unit → FsSt → Prop} (hd : DuringIn P sb t s T V h) (hop : h.op = true)
    (hx : (ip, i) ∈ h.locks)
    (hQ : ∀ s' W, DuringIn P sb t s' T W (h.log i) → (∀ j, j ≠ i → W.ino j = V.ino j) →
      (∀ j, j ≠ i → W.node j = V.node j) →
      W.ino i = { V.ino i with size := 0, addrs := fun _ => 0 } → Q () s') :
    wp (store t) err (itrunc ip) Q s := by
  obtain ⟨m, hs, hc, hp⟩ := hd
  obtain rfl := hc.super
  obtain ⟨hi, hv, hnum, ht⟩ := Core.views hc hs hx
  refine itrunc_wp hi hv (hp.outstanding_pos hop) hnum hs.fits hc.ok ht
    fun s' W h' okW hino hnode hself _ hB => ?_
  obtain ⟨B, hB⟩ := hB
  refine hQ s' W (Core.change hc hx h' okW hino hnode (by rw [hself]) ?_ (fun hn => ?_) rfl
    (fun _ => id) (fun _ hj _ => hj) ?_) hino hnode hself
  · refine OfDirs.of_size ?_
    rw [node_size, hself]
    simp
  · rw [hself] at hn
    exact .inl ⟨hn, rfl⟩
  · exact hp.logs hB (by simp [Hand.log]) (Finset.subset_insert _ _)
      (Finset.singleton_subset_iff.2 (Finset.mem_insert_self _ _)) rfl rfl

/-! ## Dropping and allocating inodes -/

/-- `iput`: the reference is dropped, and the inode is freed only when the call had pinned it or it
is not accounted for. -/
theorem iput_core [OfDirs P] {m : Mem} {Q : Unit → FsSt → Prop} (hs : Shows s m V)
    (hc : CoreIn P sb t T m V (h.take ip i)) (hp : Paid sb s (h.take ip i)) (hop : h.op = true)
    (hlock : h.Locks ip → h.Used T ip)
    (hkeep : ∀ s', DuringIn P sb t s' T V h →
      ((m.itable ip).valid = true → (V.ino i).nlink ≠ 0 ∨ h.Used T ip) → Q () s')
    (hfree : ip ∈ h.pins ∨ i ∈ h.fresh → ¬ h.Used T ip → ∀ s' W, DuringIn P sb t s' T W (h.log i) →
      (∀ j, j ≠ i → W.ino j = V.ino j) → (∀ j, j ≠ i → W.node j = V.node j) →
      (W.ino i).type = 0 → (V.ino i).nlink = 0 → Q () s') :
    wp (store t) err (iput ip) Q s := by
  obtain rfl := hc.super
  have hi : (m.itable ip).inum = i := hc.slots.name (ip, i) (.inl List.mem_cons_self)
  have hu := hc.slots.used_of_mem (x := (ip, i)) List.mem_cons_self
  have hr := (hc.slots.used_iff _).1 hu
  have hnum := (hc.slots.named _ hr).2
  simp only [hi] at hnum
  have hro := hc.slots.ref ip
  have howed := hc.slots.owed ip
  rw [Hand.count_take_self] at hro
  have hone : (m.itable ip).ref = 1 ↔ ¬ h.Used T ip := by
    unfold Hand.Used
    simp only [Hand.take] at *
    omega
  -- the lock of an inode with one reference is free
  have hnot : (m.itable ip).ref = 1 → ¬ h.Locks ip := fun hr1 hl => hone.1 hr1 (hlock hl)
  refine wp_bind (mem_wp hs (fun a m' he => ?_) fun msg he => ?_)
  · unfold iputSection at he
    simp only at he
    split at he
    · rename_i hcond
      obtain ⟨hr1, hval, hlink⟩ := hcond
      split at he
      · cases he
      · obtain ⟨rfl, rfl⟩ := Outcome.ok.inj he
        refine ⟨rfl, fun s₁ h₁ hlog₁ => ?_⟩
        obtain ⟨hcopy, ht⟩ := hc.slots.copy ip hr hval
        rw [hi] at hcopy ht
        rw [hcopy] at hlink
        have hcount : (ip ∈ h.pins ∨ i ∈ h.fresh) ∧ h.count ip = 0 := by
          obtain he | ⟨k, hk, -, hkd⟩ := hc.slots.orphan i hnum.1 ht hlink
          · refine ⟨.inr he, ?_⟩
            simp only [Hand.take] at *
            omega
          · obtain rfl := hc.slots.eq_of_inum hu (hc.slots.used_of_orphan hkd) (hk.trans hi.symm)
            simp only [Hand.take] at *
            exact ⟨.inl (hkd.resolve_left (by omega)).1, by omega⟩
        have hop₁ := hlog₁.still (hp.outstanding_pos hop)
        have hv₁ : Views s₁ (m.setInode ip { m.itable ip with lock := some t }) ip V := by
          refine .of_shows h₁ ?_
          rw [Mem.setInode_itable_self]
          simpa [hi] using hcopy
        rw [if_pos rfl]
        refine wp_bind (itrunc_wp (i := i) (by simpa using hi) hv₁ hop₁ hnum.2 hs.fits hc.ok ht
          fun s₂ W h₂ okW hino hnode hself _ hB => ?_)
        obtain ⟨B, hB⟩ := hB
        refine wp_bind (setDinode_wp h₂ fun s₃ h₃ hlog₃ => ?_)
        simp only [Mem.setD, Mem.setInode_setInode, Mem.setInode_itable_self] at h₃
        refine wp_bind (iupdate_wp h₃ (hlog₃.still (hB.still hop₁)) ?_ ?_ fun s₄ h₄ hlog₄ => ?_)
        · simpa [hi] using hnum.2
        · have hf := h₂.fits (i := i)
          rw [Mem.setInode_itable_self]
          exact ⟨by simp, hf.major, hf.minor, hf.nlink, hf.size, hf.addrs⟩
        refine wp_bind (modify_wp h₄ rfl fun s₅ h₅ hlog₅ => ?_)
        refine wp_bind (modify_wp h₅ rfl fun s₆ h₆ hlog₆ => ?_)
        refine modify_wp h₆ rfl fun s₇ h₇ hlog₇ => ?_
        simp only [Mem.setInode_setInode, Mem.setInode_itable_self, hi, hr1] at h₇ hlog₄
        have hz : ∀ x, W.ref i x = 0 := fun x => by
          cases x with
          | addr k => simp [ref, hself]
          | leaf l => exact ref_leaf_of_zero (by simp [hself])
        have hlogs := ((((hlog₁.trans hB).trans hlog₃).trans hlog₄).trans
          (hlog₅.trans_left hlog₆)).trans hlog₇
        refine hfree hcount.1 (hone.1 hr1) s₇ _ ⟨_, h₇, ⟨rfl, hc.tab, ?_, fun j => ?_, ?_,
          hc.files.congr rfl rfl⟩, ?_⟩ (fun j hj => ?_) (fun j hj => ?_) (by simp) hlink
        · exact okW.setIno_empty (.inr hz) (by simp [hself]) (by simp [hself])
        · by_cases hj : j = i
          · subst hj
            rw [node_of_eq (by simp)]
            exact OfDirs.of_type_ne (by decide)
          · rw [node_setIno_of_ne hj, hnode j hj]
            exact hc.ents j
        · refine (hc.slots.free (hnot hr1) hr1 hcount.2 (fun j hj => ?_) (by simp)
            (by simp) fun j hj => Mem.setInode_itable_of_ne hj).reorder
            (List.Perm.refl _) (List.Perm.refl _) (fun _ hj _ => hj) rfl rfl
          rw [setIno_ino_of_ne hj, hino j hj]
        · refine hp.logs hlogs ?_ (Finset.subset_insert _ _) ?_ rfl rfl
          · simp [Hand.log, Hand.take]
          · simp [Hand.log]
        · rw [setIno_ino_of_ne hj, hino j hj]
        · rw [node_setIno_of_ne hj, hnode j hj]
    · rename_i hcond
      obtain ⟨rfl, rfl⟩ := Outcome.ok.inj he
      refine ⟨rfl, fun s₁ h₁ hlog₁ => ?_⟩
      rw [if_neg (by decide)]
      have hstay : (m.itable ip).valid = true → (V.ino i).nlink ≠ 0 ∨ (m.itable ip).ref ≠ 1 := by
        intro hval
        obtain ⟨hcopy, -⟩ := hc.slots.copy ip hr hval
        rw [hi] at hcopy
        rw [hcopy] at hcond
        by_cases hn : (V.ino i).nlink = 0
        · exact .inr fun h1 => hcond ⟨h1, hval, hn⟩
        · exact .inl hn
      refine wp_pure (hkeep s₁ ⟨_, h₁, ⟨rfl, hc.tab, hc.ok, hc.ents, hc.slots.drop hlock ?_
        Mem.setInode_itable_self fun j hj => Mem.setInode_itable_of_ne hj, hc.files.congr rfl rfl⟩,
        hp.keep hlog₁ rfl rfl rfl rfl⟩ fun hval => (hstay hval).imp_right fun h1 => ?_)
      · by_cases hval : (m.itable ip).valid = true
        · rcases hstay hval with hn | h1
          · exact .inr (.inr (.inr (.inl hn)))
          · exact .inr (.inr (.inr (.inr (by simp only at hr; omega))))
        · exact .inr (.inr (.inl (by simpa using hval)))
      · exact not_not.1 fun hu' => h1 (hone.2 hu')
  · unfold iputSection at he
    simp only at he
    split at he
    · rename_i hcond
      have hfree := hc.slots.lock ip
      rw [if_neg (show ¬ (h.take ip i).Locks ip from hnot hcond.1)] at hfree
      split at he
      · rename_i hsome
        rw [hfree] at hsome
        cases hsome
      · cases he
    · cases he

theorem iput_during [OfDirs P] {Q : Unit → FsSt → Prop} (hd : DuringIn P sb t s T V (h.take ip i))
    (hop : h.op = true) (hlock : h.Locks ip → h.Used T ip) (hfresh : i ∉ h.fresh)
    (hkeep : ∀ s', DuringIn P sb t s' T V h → Q () s')
    (hfree : ip ∈ h.pins → ¬ h.Used T ip → ∀ s' W, DuringIn P sb t s' T W (h.log i) →
      (∀ j, j ≠ i → W.ino j = V.ino j) → (∀ j, j ≠ i → W.node j = V.node j) →
      (W.ino i).type = 0 → (V.ino i).nlink = 0 → Q () s') :
    wp (store t) err (iput ip) Q s := by
  obtain ⟨m, hs, hc, hp⟩ := hd
  exact iput_core hs hc hp hop hlock (fun s' hd' _ => hkeep s' hd') fun hpin =>
    hfree (hpin.resolve_right hfresh)

/-- `iput` of an inode that is not freed. -/
theorem iput_keep [OfDirs P] {Q : Unit → FsSt → Prop} (hd : DuringIn P sb t s T V (h.take ip i))
    (hop : h.op = true) (hlock : h.Locks ip → h.Used T ip) (hfresh : i ∉ h.fresh)
    (hpin : ip ∈ h.pins → 0 < h.count ip)
    (hQ : ∀ s', DuringIn P sb t s' T V h → Q () s') : wp (store t) err (iput ip) Q s := by
  have howed : h.owed.count ip ≤ T.users ip := by
    obtain ⟨m, -, hc, -⟩ := hd
    exact hc.slots.owed ip
  refine iput_during hd hop hlock hfresh hQ fun hp hu => absurd ?_ hu
  have := hpin hp
  unfold Hand.Used
  omega

/-- `iunlockput`: the inode is kept when it has a link or another reference. -/
theorem iunlockput_during [OfDirs P] {Q : Unit → FsSt → Prop}
    (hd : DuringIn P sb t s T V ((h.take ip i).lock ip i)) (hop : h.op = true) (hfresh : i ∉ h.fresh)
    (hkeep : ∀ s', DuringIn P sb t s' T V h → (V.ino i).nlink ≠ 0 ∨ h.Used T ip → Q () s')
    (hfree : ip ∈ h.pins → ¬ h.Used T ip → ∀ s' W, DuringIn P sb t s' T W (h.log i) →
      (∀ j, j ≠ i → W.ino j = V.ino j) → (∀ j, j ≠ i → W.node j = V.node j) →
      (W.ino i).type = 0 → (V.ino i).nlink = 0 → Q () s') :
    wp (store t) err (iunlockput ip) Q s := by
  obtain ⟨m, hs, hc, hp⟩ := hd
  obtain rfl := hc.super
  have hlock : ¬ h.Locks ip := by
    rintro ⟨x, hx, rfl⟩
    exact (List.nodup_cons.1 hc.slots.nodup).1 (List.mem_map.2 ⟨x, hx, rfl⟩)
  obtain ⟨hused, hvalid⟩ := hc.slots.held (ip, i) List.mem_cons_self
  have hheld := hc.slots.lock ip
  rw [if_pos ⟨(ip, i), List.mem_cons_self, rfl⟩] at hheld
  have hpos := (hc.slots.used_iff ip).1 hused
  refine wp_bind (mem_wp hs (fun a m' he => ?_) fun msg he => ?_)
  · rw [if_neg (by rw [not_or, not_not]; exact ⟨hheld, by omega⟩)] at he
    obtain ⟨-, rfl⟩ := Outcome.ok.inj he
    refine ⟨rfl, fun s₁ h₁ hlog₁ => ?_⟩
    refine iput_core h₁ ⟨rfl, hc.tab, hc.ok, hc.ents, hc.slots.release Mem.setInode_itable_self
      fun j hj => Mem.setInode_itable_of_ne hj, hc.files.congr rfl rfl⟩
      (hp.keep hlog₁ rfl rfl rfl rfl) hop (fun hl => absurd hl hlock)
      (fun s' hd' hk => hkeep s' hd' (hk ?_)) fun hpin => hfree (hpin.resolve_right hfresh)
    rw [Mem.setInode_itable_self]
    exact hvalid
  · rw [if_neg (by rw [not_or, not_not]; exact ⟨hheld, by omega⟩)] at he
    cases he

theorem iunlockput_keep [OfDirs P] {Q : Unit → FsSt → Prop}
    (hd : DuringIn P sb t s T V ((h.take ip i).lock ip i)) (hop : h.op = true) (hfresh : i ∉ h.fresh)
    (hpin : ip ∈ h.pins → 0 < h.count ip)
    (hQ : ∀ s', DuringIn P sb t s' T V h → Q () s') : wp (store t) err (iunlockput ip) Q s := by
  have howed : h.owed.count ip ≤ T.users ip := by
    obtain ⟨m, -, hc, -⟩ := hd
    exact hc.slots.owed ip
  refine iunlockput_during hd hop hfresh (fun s' hd' _ => hQ s' hd') fun hp hu => absurd ?_ hu
  have := hpin hp
  unfold Hand.Used
  omega

/-- `ialloc`: an inode that was free, or none. -/
theorem iallocLoop_during [OfDirs P] {type : ℕ} {l : List ℕ} {Q : Option InodeId → FsSt → Prop}
    (hl : ∀ i ∈ l, 0 < i ∧ i < sb.ninodes) (hd : DuringIn P sb t s T V h) (hop : h.op = true)
    (hroom : err "iget: no inodes" ∨ T.busy + h.refs.length < ninode)
    (htype : type < 2 ^ 16) (hnone : Q none s)
    (hsome : ∀ ip i s', (V.ino i).type = 0 → 0 < i → i < sb.ninodes → T.users ip ≤ h.owed.count ip →
      DuringIn P sb t s' (T.bear i) (V.setIno i { Dinode.zero with type := type })
        (({ h with fresh := insert i h.fresh }.log i).take ip i) → Q (some ip) s') :
    wp (store t) err (iallocLoop sb rootdev type l) Q s := by
  induction l with
  | nil => exact wp_pure hnone
  | cons i l ih =>
    obtain ⟨hi, hlt⟩ := hl i List.mem_cons_self
    obtain ⟨m, hs, hc, hp⟩ := id hd
    obtain rfl := hc.super
    refine wp_bind (bread_wp_of_eq (hs.tight _ (hs.layout.iblock_lt_dataStart hlt)) ?_)
    rw [hs.ino_eq hlt]
    split
    · rename_i hfree
      have hfits : ({ Dinode.zero with type := type } : Dinode).Fits :=
        ⟨htype, by simp [Dinode.zero], by simp [Dinode.zero], by simp [Dinode.zero],
          by simp [Dinode.zero], fun _ => by simp [Dinode.zero]⟩
      refine wp_bind (logWrite_wp (hp.outstanding_pos hop) ?_)
      refine wp_bind (brelse_wp ?_)
      refine wp_bind (modify_wp (hs.write_ino hlt hfits) rfl fun s₁ h₁ hlog₁ => ?_)
      have hlog := (Logs.inode m.sb s i (putDinode (s.logged (iblock i m.sb)) (i % ipb)
        { Dinode.zero with type := type })).trans_right hlog₁
      have hc₁ : CoreIn P m.sb t (T.bear i) (m.bear i) (V.setIno i { Dinode.zero with type := type })
          ({ h with fresh := insert i h.fresh }.log i) := by
        refine ⟨rfl, ?_, ?_, fun j => ?_, ?_, ?_⟩
        · rw [← hc.tab]
          rfl
        · exact hc.ok.setIno_empty (.inl hfree) (fun _ => rfl) rfl
        · by_cases hj : j = i
          · subst hj
            refine OfDirs.of_size ?_
            rw [node_size, setIno_ino_self]
            simp [Dinode.zero]
          · rw [node_setIno_of_ne hj]
            exact hc.ents j
        · exact ((hc.slots.born hfree fun j hj => setIno_ino_of_ne hj).withAux _).reorder
            (List.Perm.refl _) (List.Perm.refl _) (fun _ hj _ => hj) rfl rfl
        · exact (hc.files.withAux _).congr rfl rfl
      have hp₁ : Paid m.sb s₁ ({ h with fresh := insert i h.fresh }.log i) :=
        hp.logs hlog (by simp [Hand.log]) (Finset.subset_insert _ _) (by simp [Hand.log]) rfl rfl
      refine wp_bind (iget_core h₁ hc₁ hp₁ hi hlt (Core.full hc₁ hroom) fun ip s₂ hd₂ hslot =>
        wp_pure (hsome ip i s₂ hfree hi hlt (not_lt.1 fun hu => ?_) hd₂))
      -- an inode in use has a type
      rcases hslot with h0 | hi
      · have hr := hc.slots.ref ip
        have h0' : (m.itable ip).ref = 0 := h0
        omega
      · have hi' : (m.itable ip).inum = i := hi
        exact hc.slots.live ip hu (by rw [hi']; exact hfree)
    · exact wp_bind (brelse_wp (ih (fun j hj => hl j (List.mem_cons_of_mem _ hj))))

theorem ialloc_during [OfDirs P] {type : ℕ} {Q : Option InodeId → FsSt → Prop} (hd : DuringIn P sb t s T V h)
    (hop : h.op = true)
    (hroom : err "iget: no inodes" ∨ T.busy + h.refs.length < ninode) (htype : type < 2 ^ 16)
    (hnone : Q none s)
    (hsome : ∀ ip i s', (V.ino i).type = 0 → 0 < i → i < sb.ninodes → T.users ip ≤ h.owed.count ip →
      DuringIn P sb t s' (T.bear i) (V.setIno i { Dinode.zero with type := type })
        (({ h with fresh := insert i h.fresh }.log i).take ip i) → Q (some ip) s') :
    wp (store t) err (ialloc rootdev type) Q s := by
  refine wp_bind (gets_during hd fun m hc => ?_)
  rw [hc.super]
  refine iallocLoop_during (fun i hi => ?_) hd hop hroom htype hnone hsome
  have := List.mem_range'_1.1 hi
  omega

end Fs

end Xv6
