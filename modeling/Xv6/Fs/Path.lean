import Xv6.Fs.During

/-!
# Directories and paths in the middle of a call

Rules for `dirlookup`, `dirlink` and `namex`. The walk along a path holds one inode at a time, and
frees none: an inode without links that a path reaches has another reference.
-/

namespace Xv6

open Conc Eff Vol

/-! ## Entries of a directory -/

namespace Node

variable {n : Node} {j k r : ℕ} {f : ℕ → UInt8}

/-- An entry is written. -/
theorem ent_write : (n.write (direntSize * k) direntSize f).ent j =
    if j = k then .decode f else n.ent j := by
  unfold ent write
  split
  · rename_i hj
    refine Dirent.decode_congr fun o ho => ?_
    simp only [direntSize, hj] at *
    rw [if_pos (by omega)]
    congr 1
    omega
  · refine Dirent.decode_congr fun o ho => ?_
    simp only [direntSize] at *
    rw [if_neg (by omega)]

theorem write_zero {off : ℕ} (h : off ≤ n.size) : n.write off 0 f = n := by
  unfold write
  cases n
  simp only at h ⊢
  congr 1
  · omega
  · funext o
    rw [if_neg (by omega)]

end Node

theorem EntsOk.write {sb : Superblock} {n : Node} {k : ℕ} {f : ℕ → UInt8} (h : EntsOk sb n)
    (hoff : direntSize * k ≤ n.size) (hf : (Dirent.decode f).inum < sb.ninodes) :
    EntsOk sb (n.write (direntSize * k) direntSize f) := by
  refine ⟨fun ht => ?_, fun ht j hj => ?_⟩
  · have := h.whole ht
    simp only [Node.write, direntSize] at *
    omega
  · rw [Node.ent_write]
    split
    · exact hf
    · refine h.num ht j ?_
      simp only [Node.write, direntSize] at *
      omega

namespace Fs

variable {err : String → Prop} {sb : Superblock} {t : Tid} {s : FsSt} {T : Tab} {V : Vol} {h : Hand}
  {ip dp : InodeId} {i d : ℕ}

/-! ## `dirlookup` -/

/-- Entry `k` of directory `d` is in use and has a name. -/
def Entry (V : Vol) (d k : ℕ) (name : Name) : Prop :=
  direntSize * k + direntSize ≤ (V.ino d).size ∧ ((V.node d).ent k).inum ≠ 0 ∧
    namecmp name ((V.node d).ent k).name = 0

theorem dirlookupLoop_during {name : Name} {l : List ℕ} {Q : Option (InodeId × ℕ) → FsSt → Prop}
    (hl : ∀ k ∈ l, direntSize * k < (V.ino d).size) (hd : During sb t s T V h)
    (hx : (dp, d) ∈ h.locks) (htype : (V.ino d).type = tDir)
    (hfull : (∀ j, h.Used T j) → err "iget: no inodes")
    (hnone : (∀ k ∈ l, ¬ Entry V d k name) → Q none s)
    (hsome : ∀ l₁ k l₂ ip s', l = l₁ ++ k :: l₂ → (∀ j ∈ l₁, ¬ Entry V d j name) → Entry V d k name →
      During sb t s' T V (h.take ip ((V.node d).ent k).inum) →
      (∀ j, h.Used T j → (s'.mem.itable j).inum = (s.mem.itable j).inum) →
      Q (some (ip, direntSize * k)) s') :
    wp (store t) err (dirlookupLoop dp name (l.map (direntSize * ·))) Q s := by
  induction l with
  | nil => exact wp_pure (hnone fun k hk => absurd hk List.not_mem_nil)
  | cons k l ih =>
    refine wp_bind (readDirent_during hd hx htype (hl k List.mem_cons_self) fun hin hlt => ?_)
    simp only
    by_cases he : ((V.node d).ent k).inum ≠ 0 ∧ namecmp name ((V.node d).ent k).name = 0
    · rw [if_pos he]
      refine wp_bind (gets_during hd fun m hc => ?_)
      rw [(Core.named hc (hd.used_of_lock hx)).1]
      exact wp_bind (iget_used hd (Nat.pos_of_ne_zero he.1) hlt hfull fun ip s' hd' hnum =>
        wp_pure (hsome [] k l ip s' rfl (fun j hj => absurd hj List.not_mem_nil) ⟨hin, he⟩ hd' hnum))
    · rw [if_neg he]
      have hno : ∀ l', (∀ j ∈ l', ¬ Entry V d j name) → ∀ j ∈ k :: l', ¬ Entry V d j name := by
        intro l' h' j hj
        rcases List.mem_cons.1 hj with rfl | hj
        · exact fun hent => he hent.2
        · exact h' j hj
      refine ih (fun j hj => hl j (List.mem_cons_of_mem _ hj)) (fun h' => hnone (hno l h'))
        fun l₁ j l₂ ip s' heq h₁ => hsome (k :: l₁) j l₂ ip s' ?_ (hno l₁ h₁)
      rw [heq, List.cons_append]

/-- The entries of a directory from entry `k` on. -/
theorem mem_offsets {k j size : ℕ} :
    j ∈ List.range' k ((size + direntSize - 1) / direntSize - k) ↔ k ≤ j ∧ direntSize * j < size := by
  rw [List.mem_range'_1]
  simp only [direntSize]
  omega

/-- `dirlookup`: the first entry with the name, or none. -/
theorem dirlookup_first {name : Name} {Q : Option (InodeId × ℕ) → FsSt → Prop}
    (hd : During sb t s T V h) (hx : (dp, d) ∈ h.locks) (htype : (V.ino d).type = tDir)
    (hfull : (∀ j, h.Used T j) → err "iget: no inodes")
    (hnone : (∀ k, ¬ Entry V d k name) → Q none s)
    (hsome : ∀ k ip s', (∀ j < k, ¬ Entry V d j name) → Entry V d k name →
      During sb t s' T V (h.take ip ((V.node d).ent k).inum) →
      (∀ j, h.Used T j → (s'.mem.itable j).inum = (s.mem.itable j).inum) →
      Q (some (ip, direntSize * k)) s') :
    wp (store t) err (dirlookup dp name) Q s := by
  have hmem : ∀ k, Entry V d k name →
      k ∈ List.range' 0 (((V.ino d).size + direntSize - 1) / direntSize - 0) := fun k hk => by
    refine mem_offsets.2 ⟨Nat.zero_le _, ?_⟩
    have := hk.1
    simp only [direntSize] at *
    omega
  refine wp_bind (dinode_during hd hx ?_)
  rw [if_neg (not_not.2 htype)]
  refine dirlookupLoop_during (fun k hk => (mem_offsets.1 hk).2) hd hx htype hfull
    (fun hno => hnone fun k hk => hno k (hmem k hk) hk) fun l₁ k l₂ ip s' heq h₁ hk =>
      hsome k ip s' (fun j hj hent => ?_) hk
  -- an entry before entry `k` stands before it in the list
  have hin := hmem j hent
  have hsorted : (List.range' 0 (((V.ino d).size + direntSize - 1) / direntSize - 0)).Pairwise (· < ·) :=
    List.pairwise_lt_range'
  rw [heq] at hin hsorted
  rcases List.mem_append.1 hin with hin | hin
  · exact h₁ j hin hent
  · rcases List.mem_cons.1 hin with rfl | hin
    · exact absurd hj (Nat.lt_irrefl _)
    · have := List.rel_of_pairwise_cons (List.pairwise_append.1 hsorted).2.1 hin
      omega

/-- `dirlookup`: an entry with the name, or none. -/
theorem dirlookup_during {name : Name} {Q : Option (InodeId × ℕ) → FsSt → Prop}
    (hd : During sb t s T V h) (hx : (dp, d) ∈ h.locks) (htype : (V.ino d).type = tDir)
    (hroom : err "iget: no inodes" ∨ T.busy + h.refs.length < ninode)
    (hnone : (∀ k, ¬ Entry V d k name) → Q none s)
    (hsome : ∀ k ip s', Entry V d k name →
      During sb t s' T V (h.take ip ((V.node d).ent k).inum) → Q (some (ip, direntSize * k)) s') :
    wp (store t) err (dirlookup dp name) Q s := by
  refine dirlookup_first hd hx htype (fun hall => ?_) hnone fun k ip s' _ he hd' _ => hsome k ip s' he hd'
  obtain ⟨m, -, hc, -⟩ := hd
  exact Core.full hc hroom fun j => (hc.slots.used_iff j).1 (hall j)

/-! ## `dirlink` -/

theorem dirlinkLoop_during {last : ℕ} {l : List ℕ} {Q : ℕ → FsSt → Prop}
    (hl : ∀ k ∈ l, direntSize * k < (V.ino d).size) (hd : During sb t s T V h) (hx : (dp, d) ∈ h.locks) (htype : (V.ino d).type = tDir)
    (hlast : (∀ k ∈ l, ((V.node d).ent k).inum ≠ 0) → Q last s)
    (hk : ∀ k, direntSize * k + direntSize ≤ (V.ino d).size → ((V.node d).ent k).inum = 0 →
      Q (direntSize * k) s) :
    wp (store t) err (dirlinkLoop dp last (l.map (direntSize * ·))) Q s := by
  induction l with
  | nil => exact wp_pure (hlast fun k hk => absurd hk List.not_mem_nil)
  | cons k l ih =>
    refine wp_bind (readDirent_during hd hx htype (hl k List.mem_cons_self) fun hin _ => ?_)
    simp only
    by_cases he : ((V.node d).ent k).inum = 0
    · rw [if_pos he]
      exact wp_pure (hk k hin he)
    · rw [if_neg he]
      refine ih (fun j hj => hl j (List.mem_cons_of_mem _ hj)) fun hall => hlast fun j hj => ?_
      rcases List.mem_cons.1 hj with rfl | hj
      · exact he
      · exact hall j hj

theorem turns_entry (k : ℕ) : turns (direntSize * k) direntSize = 1 := by
  unfold turns
  rw [if_neg (by decide)]
  simp only [direntSize, bsize]
  omega

/-- `writei` of a directory entry writes it whole or not at all. -/
theorem writeEntry_during {k : ℕ} {f : ℕ → UInt8} {Q : ℤ → FsSt → Prop}
    (hd : During sb t s T V h) (hop : h.op = true) (hx : (dp, d) ∈ h.locks)
    (htype : (V.ino d).type = tDir) (hf : (Dirent.decode f).inum < sb.ninodes)
    (hfail : ∀ s' W (r : ℤ), r ≠ direntSize → (V.ino d).size < direntSize * k + direntSize →
      During sb t s' T W (h.entry d) → (∀ j, W.node j = V.node j) → Q r s')
    (hdone : ∀ s' W, direntSize * k ≤ (V.ino d).size → During sb t s' T W (h.entry d) →
      (∀ j, j ≠ d → W.node j = V.node j) →
      W.node d = (V.node d).write (direntSize * k) direntSize f → Q direntSize s') :
    wp (store t) err (writei dp (.kernel f) (direntSize * k) direntSize) Q s := by
  have ht : (V.ino d).type ≠ 0 := by rw [htype]; decide
  have hsize : (V.node d).size = (V.ino d).size := by rw [node_size, if_neg ht]
  have hents : EntsOk sb (V.node d) := by
    obtain ⟨m, -, hc, -⟩ := hd
    exact hc.ents d
  have hfit : direntSize * k % bsize + direntSize ≤ bsize := by
    simp only [direntSize, bsize]
    omega
  have hfill := hd.ok.filled d ht
  refine writei_during hd hop hx (fun _ => Src.readable_kernel f _) (fun _ hoff r _ hone => ?_) (fun hbad => ?_)
    fun s' W r hoff _ hone hd' _ _ hnode hwrite hread _ => ?_
  · rcases hone hfit with rfl | rfl
    · rw [Node.write_zero (by rw [hsize]; exact hoff)]
      exact hents
    · exact hents.write (by rw [hsize]; exact hoff) hf
  · refine hfail s V _ (by decide) ?_ (hd.entry d) fun _ => rfl
    have := hfill.size
    simp only [direntSize] at *
    omega
  · rw [turns_entry] at hd'
    rcases hone hfit with rfl | rfl
    · refine hfail s' W _ (by decide) ?_ hd' fun j => ?_
      · by_contra hin
        have hzero := ((hread (Src.readable_kernel f _)).resolve_left (by decide)).2
        refine hfill.block (direntSize * k / bsize) ?_ hzero
        simp only [direntSize, bsize] at *
        omega
      by_cases hj : j = d
      · rw [hj, hwrite (During.clear hd htype), Node.write_zero (by rw [hsize]; exact hoff)]
      · exact hnode j hj
    · exact hdone s' W hoff hd' hnode (hwrite (During.clear hd htype))

/-- The locked slots stay in use when a further reference to one is dropped. -/
theorem used_of_locks (hd : During sb t s T V h) : h.Locks ip → h.Used T ip := by
  rintro ⟨x, hx, rfl⟩
  exact hd.used_of_lock hx

/-- `dirlink`: an entry is added, or the files are as before. -/
theorem dirlink_during {name : Name} {Q : ℤ → FsSt → Prop} (hd : During sb t s T V h)
    (hop : h.op = true) (hx : (dp, d) ∈ h.locks) (htype : (V.ino d).type = tDir)
    (hroom : err "iget: no inodes" ∨ T.busy + h.refs.length < ninode)
    (hfresh : h.fresh = ∅) (hpins : ∀ j ∈ h.pins, 0 < h.count j) (hi : i < sb.ninodes)
    (hfail : ∀ s' W, During sb t s' T W (h.entry d) → (∀ j, W.node j = V.node j) → Q (-1) s')
    (hdone : ∀ s' W k, (∀ k, ¬ Entry V d k name) → direntSize * k ≤ (V.ino d).size →
      (direntSize * k + direntSize ≤ (V.ino d).size → ((V.node d).ent k).inum = 0) →
      During sb t s' (T.stampEntry d k (i % 2 ^ 16)) W (h.entry d) →
      (∀ j, j ≠ d → W.node j = V.node j) → W.node d = (V.node d).write (direntSize * k) direntSize
        (Dirent.encode ⟨i % 2 ^ 16, strncpy name⟩) → Q 0 s') :
    wp (store t) err (dirlink dp name i) Q s := by
  refine wp_bind (dirlookup_during hd hx htype hroom (fun hno => ?_) fun k ip s₁ _ hd₁ => ?_)
  · refine wp_bind (dinode_during hd hx ?_)
    -- an entry that is not in use, or the end of the directory
    have hwrite : ∀ k, (direntSize * k + direntSize ≤ (V.ino d).size → ((V.node d).ent k).inum = 0) →
        wp (store t) err (do
          let r ← writei dp (.kernel (Dirent.encode ⟨i % 2 ^ 16, strncpy name⟩)) (direntSize * k)
            direntSize
          if r ≠ direntSize then return -1
          else
            modify fun m => m.stampEntry (m.itable dp).inum (direntSize * k / direntSize) (i % 2 ^ 16)
            return 0) Q s := by
      intro k hk
      have hdec : (Dirent.decode (Dirent.encode ⟨i % 2 ^ 16, strncpy name⟩)).inum < sb.ninodes := by
        rw [Dirent.decode_encode (Nat.mod_lt _ (by decide))]
        exact (Nat.mod_le _ _).trans_lt hi
      refine wp_bind (writeEntry_during hd hop hx htype hdec (fun s' W r hr _ hd' hnode => ?_)
        fun s' W hoff hd' hnode hself => ?_)
      · rw [if_pos hr]
        exact wp_pure (hfail s' W hd' hnode)
      · rw [if_neg (by simp)]
        obtain ⟨m, hs, hc, hp⟩ := hd'
        refine wp_bind (modify_wp hs rfl fun s₂ h₂ hlog₂ => wp_pure ?_)
        rw [hc.slots.name (dp, d) (.inr hx), Nat.mul_div_cancel_left k (by decide)] at h₂
        refine hdone s₂ W k hno hoff hk ⟨_, h₂, ⟨hc.super, ?_, hc.ok, hc.ents,
          hc.slots.withAux _, hc.files.withAux _⟩, hp.keep (hc.super ▸ hlog₂) rfl rfl rfl rfl⟩ hnode hself
        rw [← hc.tab]
        rfl
    refine wp_bind (dirlinkLoop_during (fun k hk => (mem_offsets.1 hk).2) hd hx htype (fun hall => ?_) fun k hin hk => hwrite k fun _ => hk)
    rw [Nat.mul_comm]
    refine hwrite _ fun hin => absurd hin ?_
    simp only [direntSize]
    omega
  · exact wp_bind (iput_keep hd₁ hop (used_of_locks hd) (by simp [hfresh]) (hpins ip) fun s₂ hd₂ =>
      wp_pure (hfail s₂ V (hd₂.entry d) fun _ => rfl))

/-! ## `namex` -/

/-- The root is there, and so is every inode that an entry names. -/
structure NoDangling (V : Vol) : Prop where
  root : (V.ino rootino).type ≠ 0
  entry : ∀ d k, (V.ino d).type = tDir → direntSize * k + direntSize ≤ (V.ino d).size →
    ((V.node d).ent k).inum ≠ 0 → (V.ino ((V.node d).ent k).inum).type ≠ 0

theorem NoDangling.of_entry {k : ℕ} {name : Name} (hn : NoDangling V) (ht : (V.ino d).type = tDir)
    (he : Entry V d k name) : (V.ino ((V.node d).ent k).inum).type ≠ 0 := hn.entry d k ht he.1 he.2.1

/-- A path gets shorter with each element. -/
theorem skipelem_length {path path' : Path} {name name' : Name}
    (h : skipelem path name = some (path', name')) : path'.length < path.length := by
  unfold skipelem at h
  simp only at h
  split at h
  · cases h
  · rename_i hne
    obtain ⟨rfl, -⟩ := Prod.mk.inj (Option.some.inj h)
    obtain ⟨c, l, hcl⟩ := List.exists_cons_of_ne_nil hne
    have hhead : (c == slash) = false := by
      have := List.head?_dropWhile_not (· == slash) path
      rw [hcl] at this
      simpa using this
    have h₁ : (path.dropWhile (· == slash)).length ≤ path.length :=
      (List.dropWhile_sublist _).length_le
    have h₂ : (((path.dropWhile (· == slash)).dropWhile (· != slash)).dropWhile (· == slash)).length ≤
        l.length := by
      rw [hcl, List.dropWhile_cons_of_pos (by simpa [bne] using hhead)]
      exact ((List.dropWhile_sublist _).trans (List.dropWhile_sublist _)).length_le
    have h₃ : (path.dropWhile (· == slash)).length = l.length + 1 := by rw [hcl]; rfl
    omega

theorem namexLoop_during {b : Bool} {k : ℕ} {path : Path} {name : Name}
    {Q : Option (InodeId × Name) → FsSt → Prop} (hd : During sb t s T V (h.take ip i))
    (hop : h.op = true) (hfresh : h.fresh = ∅) (hpins : ∀ j ∈ h.pins, 0 < h.count j)
    (hlocks : ∀ jp, h.Locks jp → h.Used T jp) (hk : path.length < k)
    (hroom : err "iget: no inodes" ∨ T.busy + (h.refs.length + 1) < ninode)
    (hlive : err "ilock: no type" ∨ NoDangling V ∧ (V.ino i).type ≠ 0)
    (hnone : ∀ s', During sb t s' T V h → Q none s')
    (hsome : ∀ jp j name s', During sb t s' T V (h.take jp j) →
      (err "ilock: no type" ∨ (V.ino j).type ≠ 0) → (b = true → (V.ino j).type = tDir) →
      Q (some (jp, name)) s') :
    wp (store t) err (namexLoop b k ip path name) Q s := by
  induction k generalizing ip i path name s with
  | zero => omega
  | succ k ih =>
    unfold namexLoop
    cases hsk : skipelem path name with
    | none =>
      simp only
      split
      · exact wp_bind (iput_keep hd hop (hlocks ip) (by simp [hfresh]) (hpins ip) fun s₁ hd₁ =>
          wp_pure (hnone s₁ hd₁))
      · rename_i hb
        exact wp_pure (hsome ip i name s hd (hlive.imp_right And.right) fun h => absurd h hb)
    | some x =>
      obtain ⟨path', name'⟩ := x
      have hlen := skipelem_length hsk
      simp only
      refine wp_bind (ilock_ref hd List.mem_cons_self (hlive.imp_right And.right) fun s₁ hd₁ => ?_)
      refine wp_bind (dinode_during hd₁ List.mem_cons_self ?_)
      split
      · exact wp_bind (iunlockput_keep hd₁ hop (by simp [hfresh]) (hpins ip) fun s₂ hd₂ => wp_pure (hnone s₂ hd₂))
      · rename_i htype
        rw [not_not] at htype
        split
        · exact wp_bind (iunlock_during hd₁ fun s₂ hd₂ _ =>
            wp_pure (hsome ip i name' s₂ hd₂ (hlive.imp_right And.right) fun _ => htype))
        · refine wp_bind (dirlookup_during hd₁ List.mem_cons_self htype hroom (fun _ => ?_)
            fun k' jp s₂ hent hd₂ => ?_)
          · exact wp_bind (iunlockput_keep hd₁ hop (by simp [hfresh]) (hpins ip) fun s₂ hd₂ =>
              wp_pure (hnone s₂ hd₂))
          · -- the next inode is held while the directory is dropped
            have hd₂' : During sb t s₂ T V
                (((h.take jp ((V.node i).ent k').inum).take ip i).lock ip i) :=
              hd₂.weaken (List.Perm.swap _ _ _) (List.Perm.refl _) (fun _ hj _ => hj)
                (Nat.le_refl _) (Finset.Subset.refl _) rfl
            exact wp_bind (iunlockput_keep hd₂' hop (by simp [Hand.take, hfresh])
              (fun hp => (hpins ip hp).trans_le Hand.count_le_take)
              fun s₃ hd₃ => ih hd₃ (by omega) (hlive.imp_right fun h => ⟨h.1, h.1.of_entry htype hent⟩))

/-- `namex`: an inode that the call then holds, or none. -/
theorem namex_during {p : ProcId} {b : Bool} {path : Path}
    {Q : Option (InodeId × Name) → FsSt → Prop} (hd : During sb t s T V h) (hop : h.op = true)
    (howed : h.owed = []) (hfresh : h.fresh = ∅) (hpins : ∀ j ∈ h.pins, 0 < h.count j)
    (hroom : err "iget: no inodes" ∨ T.busy + (h.refs.length + 1) < ninode)
    (hlive : err "ilock: no type" ∨ NoDangling V)
    (hnone : ∀ s', During sb t s' T V h → Q none s')
    (hsome : ∀ jp j name s', During sb t s' T V (h.take jp j) →
      (err "ilock: no type" ∨ (V.ino j).type ≠ 0) → (b = true → (V.ino j).type = tDir) →
      Q (some (jp, name)) s') :
    wp (store t) err (namex p path b) Q s := by
  have hroot : rootino < sb.ninodes := by
    obtain ⟨m, hs, hc, -⟩ := hd
    exact hc.super ▸ hs.layout.root
  have hloop : ∀ s' ip i, During sb t s' T V (h.take ip i) → (NoDangling V → (V.ino i).type ≠ 0) →
      wp (store t) err (namexLoop b (path.length + 1) ip path (.zero _)) Q s' :=
    fun s' ip i hd' ht => namexLoop_during hd' hop hfresh hpins (fun jp => used_of_locks hd)
      (Nat.lt_succ_self _) hroom (hlive.imp_right fun hn => ⟨hn, ht hn⟩) hnone hsome
  unfold namex
  split
  · exact wp_bind (iget_during hd (by decide) hroot (hroom.imp_right fun h => by omega)
      fun ip s' hd' => hloop s' ip _ hd' NoDangling.root)
  · exact wp_bind (idupCwd_during hd howed fun ip i s' _ ht hd' => hloop s' ip i hd' fun _ => ht)

end Fs

end Xv6
