import Xv6.Fs.Open

/-!
# Making and removing names

What `create`, `sys_link` and `sys_unlink` do to directories and link counts (`Created`, `Linked`,
`Unlinked`), and rules for them. When one of them fails, the files are as before.
-/

namespace Xv6

open Conc Eff Vol Count

/-! ## Changes of directories -/

namespace Node

/-- A directory with an entry written. -/
def enter (n : Node) (k : ℕ) (e : Dirent) : Node := n.write (direntSize * k) direntSize e.encode

/-- A directory with an entry cleared. -/
def clear (n : Node) (k : ℕ) : Node := n.write (direntSize * k) direntSize fun _ => 0

/-- A new file, or a directory without entries. -/
def new (type major minor : ℕ) : Node :=
  ⟨type, major % 2 ^ 16, minor % 2 ^ 16, 1, 0, fun _ => 0⟩

end Node

/-- The auxiliary variables of the inodes that are allocated are as before. -/
def AuxCalm (V : Vol) (a a' : FsAux) : Prop :=
  ∀ j, (V.node j).type ≠ 0 → a'.gen j = a.gen j ∧ ∀ k, a'.stamp j k = a.stamp j k

theorem AuxCalm.refl (V : Vol) (a : FsAux) : AuxCalm V a a := fun _ _ => ⟨rfl, fun _ => rfl⟩

theorem AuxCalm.of_eq {V : Vol} {a a' : FsAux} (h : a' = a) : AuxCalm V a a' := h ▸ .refl V a

namespace Fs

/-- Entry `k` of directory `d` is free, and no entry has the name. -/
structure Vacant (V : Vol) (d k : ℕ) (name : Name) : Prop where
  dir : (V.ino d).type = tDir
  absent : ∀ l, ¬ Entry V d l name
  le : direntSize * k ≤ (V.ino d).size
  free : direntSize * k + direntSize ≤ (V.ino d).size → ((V.node d).ent k).inum = 0

/-- A file, directory or device is made and gets a name. -/
structure Created (sb : Superblock) (V : Vol) (a : FsAux) (W : Vol) (a' : FsAux) (d k i : ℕ)
    (name : Name) (type major minor : ℕ) : Prop where
  vacant : Vacant V d k name
  free : (V.ino i).type = 0
  lt : 0 < i ∧ i < sb.ninodes
  node : ∀ j, j ≠ i → j ≠ d → W.node j = V.node j
  parent : W.node d = { (V.node d).enter k ⟨i % 2 ^ 16, strncpy name⟩ with
    nlink := if type = tDir then ((V.node d).nlink + 1) % 2 ^ 16 else (V.node d).nlink }
  child : if type = tDir then ∃ l ≤ 1, (l = 0 → i % 2 ^ 16 = 0) ∧
      W.node i = ((Node.new type major minor).enter 0 ⟨i % 2 ^ 16, strncpy dot⟩).enter l
        ⟨d % 2 ^ 16, strncpy dotdot⟩
    else W.node i = Node.new type major minor
  gen : a'.gen = fun j => if j = i then a.gen j + 1 else a.gen j
  stamp : ∀ e l, a'.stamp e l = if e = d ∧ l = k then a'.gen (i % 2 ^ 16)
    else if e = i then a'.stamp e l else a.stamp e l
  self : type = tDir → a'.stamp i 0 = a'.gen (i % 2 ^ 16) ∧ a'.stamp i 1 = a'.gen (d % 2 ^ 16) ∨
    i % 2 ^ 16 = 0

/-- A file gets a further name. -/
structure Linked (V : Vol) (a : FsAux) (W : Vol) (a' : FsAux) (d k i : ℕ) (name : Name) : Prop where
  vacant : Vacant V d k name
  file : (V.ino i).type ≠ 0 ∧ (V.ino i).type ≠ tDir
  node : ∀ j, j ≠ i → j ≠ d → W.node j = V.node j
  parent : W.node d = (V.node d).enter k ⟨i % 2 ^ 16, strncpy name⟩
  child : W.node i = { V.node i with nlink := ((V.node i).nlink + 1) % 2 ^ 16 }
  gen : a'.gen = a.gen
  stamp : ∀ e l, a'.stamp e l = if e = d ∧ l = k then a.gen (i % 2 ^ 16) else a.stamp e l

/-- A name is removed. -/
structure Unlinked (V W : Vol) (d k i : ℕ) (name : Name) : Prop where
  dir : (V.ino d).type = tDir
  entry : Entry V d k name ∧ ((V.node d).ent k).inum = i
  proper : namecmp name dot ≠ 0 ∧ namecmp name dotdot ≠ 0
  links : (V.ino i).type ≠ 0 ∧ 0 < (V.ino i).nlink ∧ (V.ino i).nlink < 2 ^ 15
  empty : (V.ino i).type = tDir → ∀ l, 2 ≤ l → direntSize * l < (V.ino i).size →
    ((V.node i).ent l).inum = 0
  ne : d ≠ i
  node : ∀ j, j ≠ i → j ≠ d → W.node j = V.node j
  parent : W.node d = { (V.node d).clear k with nlink := if (V.ino i).type = tDir then
    ((V.node d).nlink + (2 ^ 16 - 1)) % 2 ^ 16 else (V.node d).nlink }
  child : W.node i = { V.node i with nlink := (V.node i).nlink - 1 }

end Fs

/-! ## Nodes under changes of an inode -/

namespace Vol

variable {V : Vol} {i : ℕ}

theorem node_setIno_nlink (ht : (V.ino i).type ≠ 0) (n : ℕ) :
    (V.setIno i { V.ino i with nlink := n }).node i = { V.node i with nlink := n } := by
  rw [node_of_ne (by simpa using ht), node_of_ne ht]
  simp only [setIno_ino_self]
  congr 1
  funext o
  rw [byte_setIno_of_addrs (d := { V.ino i with nlink := n }) rfl]

/-- The node of an inode without contents. -/
theorem node_setIno_empty {d : Dinode} (ht : d.type ≠ 0) (hs : d.size = 0) :
    (V.setIno i d).node i = ⟨d.type, d.major, d.minor, d.nlink, 0, fun _ => 0⟩ := by
  rw [node_of_ne (by simpa using ht)]
  simp [setIno_ino_self, hs]

end Vol

/-- What a call holds in an operation. -/
def Hand.hold (b : Bound) (refs locks : List (InodeId × ℕ)) (pins : List InodeId) (data : ℕ)
    (inos : Finset ℕ) : Hand :=
  ⟨refs, locks, pins, ∅, [], [], [], data, inos, true, b⟩

namespace DuringIn

variable {P : Node → Prop} {sb : Superblock} {t : Tid} {s : FsSt} {T : Tab} {V : Vol} {b : Bound} {ip dp : InodeId}
  {i d n n' : ℕ} {refs refs' locks locks' : List (InodeId × ℕ)} {pins pins' : List InodeId}
  {I I' : Finset ℕ}

/-- Two locked inodes are different. -/
theorem ne_of_locks {h : Hand} (hd : DuringIn P sb t s T V ((h.lock dp d).lock ip i)) :
    ip ≠ dp ∧ i ≠ d := by
  obtain ⟨m, -, hc, -⟩ := hd
  have hne : ip ≠ dp := fun e => (List.nodup_cons.1 hc.slots.nodup).1 (e ▸ List.mem_cons_self)
  refine ⟨hne, fun e => hne ?_⟩
  have hip : (ip, i) ∈ ((h.lock dp d).lock ip i).locks := List.mem_cons_self
  have hdp : (dp, d) ∈ ((h.lock dp d).lock ip i).locks := List.mem_cons_of_mem _ List.mem_cons_self
  refine hc.slots.eq_of_inum (hc.slots.held _ hdp).1 (hc.slots.held _ hip).1 ?_
  rw [hc.slots.name _ (.inr hip), hc.slots.name _ (.inr hdp)]
  exact e

/-- The order does not matter, and what is dropped need not be pinned. -/
theorem arrange (hd : DuringIn P sb t s T V (.hold b refs locks pins n I)) (hr : refs.Perm refs')
    (hl : locks.Perm locks') (hp : ∀ x ∈ refs, x.1 ∈ pins → x.1 ∈ pins')
    (hn : n ≤ n') (hI : I ⊆ I') : DuringIn P sb t s T V (.hold b refs' locks' pins' n' I') := by
  refine hd.weaken hr hl (fun j hj h0 => ?_) hn hI rfl
  obtain ⟨x, hx, rfl⟩ := List.mem_map.1 (List.count_pos_iff.1 h0)
  exact hp x hx hj

theorem atMost (hd : DuringIn P sb t s T V (.hold b refs locks pins n I)) (hn : n ≤ n') (hI : I ⊆ I') :
    DuringIn P sb t s T V (.hold b refs locks pins n' I') :=
  hd.arrange (List.Perm.refl _) (List.Perm.refl _) (fun _ _ hj => hj) hn hI

/-- A call without references need not pin anything. -/
theorem dropPins (hd : DuringIn P sb t s T V (.hold b [] locks pins n I)) (pins' : List InodeId)
    (hn : n ≤ n') (hI : I ⊆ I') : DuringIn P sb t s T V (.hold b [] locks pins' n' I') :=
  hd.arrange (List.Perm.refl _) (List.Perm.refl _) (fun _ hx => absurd hx List.not_mem_nil) hn hI

end DuringIn

namespace Fs

variable {α : Type} {err : String → Prop} {sb : Superblock} {t : Tid} {s : FsSt} {T : Tab}
  {V : Vol} {b : Bound} {p : ProcId} {ip dp : InodeId} {i d : ℕ}

/-! ## `create` -/

/-- `create` after `fail:`: the inode is freed. -/
theorem createFail_during {n : ℕ} {I : Finset ℕ} {Q : Option InodeId → FsSt → Prop}
    (hd : During sb t s T V (.hold b [(ip, i), (dp, d)] [(ip, i), (dp, d)] [] n I))
    (hu : T.users ip = 0)
    (hQ : ∀ s' W, During sb t s' T W (.hold b [] [] [] n (insert i I)) →
      (∀ j, j ≠ i → W.node j = V.node j) → (W.ino i).type = 0 → Q none s') :
    wp (store t) err (createFail dp ip) Q s := by
  have hne : ip ≠ dp ∧ i ≠ d := DuringIn.ne_of_locks (h := .hold b [(ip, i), (dp, d)] [] [] n I) hd
  refine nlink_bind hd rfl List.mem_cons_self List.mem_cons_self fun s₁ hd₁ => ?_
  have hd₁' : During sb t s₁ T (V.setIno i { V.ino i with nlink := 0 })
      (((Hand.hold b [(dp, d)] [(dp, d)] [ip] n (insert i I)).take ip i).lock ip i) := hd₁
  have hcount : (Hand.hold b [(dp, d)] [(dp, d)] [ip] n (insert i I)).count ip = 0 := by
    simp [Hand.count, Hand.hold, hne.1.symm]
  refine wp_bind (iunlockput_during hd₁' rfl (Finset.notMem_empty _) (fun s₂ _ hkeep => ?_)
    fun _ _ s₂ W hd₂ _ hnode ht _ => ?_)
  · -- there is no other reference
    refine absurd hkeep ?_
    rw [not_or, setIno_ino_self, not_not]
    refine ⟨rfl, ?_⟩
    unfold Hand.Used
    rw [hu, hcount]
    exact Nat.not_lt_zero _
  · have hd₂' : During sb t s₂ T W
        (((Hand.hold b [] [] [ip] n (insert i (insert i I))).take dp d).lock dp d) := hd₂
    refine wp_bind (iunlockput_keep hd₂' rfl (Finset.notMem_empty _) (fun hp => ?_) fun s₃ hd₃ =>
      wp_pure (hQ s₃ W ?_ (fun j hj => ?_) ht))
    · exact absurd (List.mem_singleton.1 hp) hne.1.symm
    · exact hd₃.dropPins _ (Nat.le_refl _) (Finset.insert_subset (Finset.mem_insert_self _ _) (Finset.Subset.refl _))
    · rw [hnode j hj, node_setIno_of_ne hj]

/-- `create` from `if(dirlink(dp, name, ip->inum) < 0)` on. -/
theorem createEnter_during {n : ℕ} {I : Finset ℕ} {name : Name} {type : ℕ}
    {Q : Option InodeId → FsSt → Prop}
    (hd : During sb t s T V (.hold b [(ip, i), (dp, d)] [(ip, i), (dp, d)] [] n I))
    (hu : T.users ip = 0) (htype : (V.ino d).type = tDir) (hi : i < sb.ninodes)
    (hroom : err "iget: no inodes" ∨ T.busy + 2 < ninode)
    (hfail : ∀ s' W, During sb t s' T W (.hold b [] [] [] (n + 2) (insert i (insert d I))) →
      (∀ j, j ≠ i → W.node j = V.node j) → (W.ino i).type = 0 → Q none s')
    (hdone : ∀ s' U W l, During sb t s' (T.stampEntry d l (i % 2 ^ 16)) W
        (.hold b [(ip, i)] [(ip, i)] [] (n + 2) (insert d I)) → Vacant V d l name →
      (∀ j, j ≠ d → U.node j = V.node j) →
      U.node d = { (V.node d).enter l ⟨i % 2 ^ 16, strncpy name⟩ with
        nlink := if type = tDir then ((V.node d).nlink + 1) % 2 ^ 16 else (V.node d).nlink } →
      NameCalm U W → Q (some ip) s') :
    wp (store t) err (createEnter dp ip name type i) Q s := by
  have hne : ip ≠ dp ∧ i ≠ d := DuringIn.ne_of_locks (h := .hold b [(ip, i), (dp, d)] [] [] n I) hd
  have hx : (dp, d) ∈ (Hand.hold b [(ip, i), (dp, d)] [(ip, i), (dp, d)] [] n I).locks :=
    List.mem_cons_of_mem _ List.mem_cons_self
  refine wp_bind (dirlink_during hd rfl hx htype hroom rfl (fun j hj => absurd hj List.not_mem_nil) hi
    (fun s₁ W hd₁ hnode => ?_) fun s₁ W l hno hoff hk hd₁ hnode hself => ?_)
  · rw [if_pos (by decide)]
    refine createFail_during hd₁ hu fun s₂ X hd₂ hnode₂ ht => hfail s₂ X hd₂ (fun j hj => ?_) ht
    rw [hnode₂ j hj, hnode]
  · rw [if_neg (by decide)]
    have hv : Vacant V d l name := ⟨htype, hno, hoff, hk⟩
    have htW : (W.ino d).type ≠ 0 := hd₁.type_ne hx
    have hend : ∀ s' U pins, During sb t s' (T.stampEntry d l (i % 2 ^ 16)) U
          (.hold b [(ip, i), (dp, d)] [(ip, i), (dp, d)] pins (n + 2) (insert d I)) → ip ∉ pins →
        (∀ j, j ≠ d → U.node j = V.node j) →
        U.node d = { (V.node d).enter l ⟨i % 2 ^ 16, strncpy name⟩ with
          nlink := if type = tDir then ((V.node d).nlink + 1) % 2 ^ 16 else (V.node d).nlink } →
        wp (store t) err (do iunlockput dp; return some ip) Q s' := by
      intro s' U pins hd' hpins hnode' hself'
      have hd'' : During sb t s' (T.stampEntry d l (i % 2 ^ 16)) U
          (((Hand.hold b [(ip, i)] [(ip, i)] pins (n + 2) (insert d I)).take dp d).lock dp d) :=
        hd'.arrange (List.Perm.swap _ _ _) (List.Perm.swap _ _ _) (fun _ _ hj => hj) (Nat.le_refl _)
          (Finset.Subset.refl _)
      refine wp_bind (iunlockput_during hd'' rfl (Finset.notMem_empty _) (fun s₂ hd₂ _ => ?_)
        fun _ _ s₂ X hd₂ _ hnode₂ ht hn => ?_)
      · refine wp_pure (hdone s₂ U U l (hd₂.arrange (List.Perm.refl _) (List.Perm.refl _)
          (fun x hx hj => ?_) (Nat.le_refl _) (Finset.Subset.refl _)) hv hnode' hself' (.refl U))
        rw [List.mem_singleton.1 hx] at hj
        exact absurd hj hpins
      · refine wp_pure (hdone s₂ U X l (hd₂.arrange (List.Perm.refl _) (List.Perm.refl _)
          (fun x hx hj => ?_) (Nat.le_refl _) (Finset.insert_subset (Finset.mem_insert_self _ _)
            (Finset.Subset.refl _))) hv hnode' hself' (.of_freed hnode₂ ht hn))
        rw [List.mem_singleton.1 hx] at hj
        exact absurd hj hpins
    split
    · rename_i hdir
      refine nlink_bind hd₁ rfl hx (List.mem_cons_of_mem _ List.mem_cons_self) fun s₂ hd₂ => ?_
      refine hend s₂ _ [dp] (hd₂.atMost (Nat.le_refl _) (Finset.insert_subset (Finset.mem_insert_self _ _) (Finset.Subset.refl _)))
        (by simpa using hne.1) (fun j hj => ?_) ?_
      · rw [node_setIno_of_ne hj, hnode j hj]
      · rw [node_setIno_nlink htW, hself]
        have hlink : (W.ino d).nlink = (V.node d).nlink := by
          have := congrArg Node.nlink hself
          rw [node_of_ne htW] at this
          exact this
        simp only [hlink, hdir, if_true, Node.enter]
    · rename_i hdir
      refine hend s₁ W [] hd₁ List.not_mem_nil hnode ?_
      rw [hself]
      simp only [hdir, if_false, Node.enter]
      rfl

theorem Vacant.congr {V W : Vol} {k : ℕ} {name : Name} (hv : Vacant W d k name)
    (hnode : W.node d = V.node d) : Vacant V d k name := by
  have htype : (V.ino d).type = tDir := by
    rw [← node_type, ← hnode, node_type]
    exact hv.dir
  have hsize : (V.ino d).size = (W.ino d).size := by
    have := congrArg Node.size hnode
    rw [node_size, node_size, if_neg (by rw [hv.dir]; decide), if_neg (by rw [htype]; decide)] at this
    exact this.symm
  refine ⟨htype, fun l hl => hv.absent l ?_, by rw [hsize]; exact hv.le, fun hle => ?_⟩
  · unfold Entry at *
    rw [hnode, ← hsize]
    exact hl
  · rw [← hnode]
    exact hv.free (by rw [← hsize]; exact hle)

theorem ent_enter {n : Node} {k j : ℕ} {e : Dirent} (he : e.inum < 2 ^ 16) :
    (n.enter k e).ent j = if j = k then e else n.ent j := by
  unfold Node.enter
  rw [Node.ent_write, Dirent.decode_encode he]

/-- `create` for a name that is not in the directory, from `ilock(ip)` on. -/
theorem createNew_during {name : Name} {type major minor : ℕ} {Q : Option InodeId → FsSt → Prop}
    (hd : During sb t s (T.bear i) (V.setIno i { Dinode.zero with type := type })
      (({ Hand.hold b [(dp, d)] [(dp, d)] [] 0 ∅ with fresh := insert i ∅ }.log i).take ip i))
    (htype : type ≠ 0) (hfree : (V.ino i).type = 0) (hlt : 0 < i ∧ i < sb.ninodes)
    (hu : T.users ip = 0) (hdir : (V.ino d).type = tDir) (hdlt : d < sb.ninodes)
    (hroom : err "iget: no inodes" ∨ T.busy + 2 < ninode)
    (hfail : ∀ s' a W, During sb t s' (T.withAux a) W (.hold b [] [] [] 6 {d, i}) →
      (∀ j, W.node j = V.node j) → AuxCalm V T.aux a → Q none s')
    (hdone : ∀ s' a U W l, During sb t s' (T.withAux a) W
        (.hold b [(ip, i)] [(ip, i)] [] 6 {d, i}) →
      Created sb V T.aux U a d l i name type major minor → NameCalm U W → Q (some ip) s') :
    wp (store t) err (createNew dp ip name type major minor) Q s := by
  have hdi : d ≠ i := by
    rintro rfl
    rw [hdir] at hfree
    cases hfree
  refine wp_bind (ilock_ref hd List.mem_cons_self (.inr (by simpa using htype)) fun s₁ hd₁ => ?_)
  refine update_bind (.hold b [(ip, i), (dp, d)] [(ip, i), (dp, d)] [] 0 (insert i (insert i ∅))) hd₁
    rfl List.mem_cons_self rfl rfl rfl (fun hf => ?_) (fun h0 => absurd h0 Nat.one_ne_zero) rfl
    (fun _ hj => hj) (fun j hj hne => ?_) fun s₂ hd₂ => ?_
  · exact ⟨hf.type, Nat.mod_lt _ (by decide), Nat.mod_lt _ (by decide), by simp, hf.size, hf.addrs⟩
  · exact absurd (Finset.mem_insert.1 hj) (by simpa using hne)
  rw [setIno_setIno, setIno_ino_self] at hd₂
  generalize hV₁ : V.setIno i _ = V₁ at hd₂
  have hnode₁ : ∀ j, j ≠ i → V₁.node j = V.node j := fun j hj => by
    rw [← hV₁, node_setIno_of_ne hj]
  have hself₁ : V₁.node i = Node.new type major minor := by
    rw [← hV₁, node_setIno_empty htype rfl]
    rfl
  -- the inode is freed again
  have hbad : ∀ s' a W n I, During sb t s' (T.withAux a) W
      (.hold b [(ip, i), (dp, d)] [(ip, i), (dp, d)] [] n I) → n ≤ 6 → I ⊆ {d, i} →
      (∀ j, j ≠ i → W.node j = V.node j) → AuxCalm V T.aux a →
      wp (store t) err (createFail dp ip) Q s' := by
    intro s' a W n I hd' hn hI hnode ha
    refine createFail_during hd' hu fun s'' X hd'' hnode' ht => hfail s'' a X
      (hd''.dropPins _ hn (Finset.insert_subset (by simp) hI)) (fun j => ?_) ha
    by_cases hj : j = i
    · rw [hj, node_of_eq ht, node_of_eq hfree]
    · rw [hnode' j hj, hnode j hj]
  have hcalm : ∀ a : FsAux, a.gen = (T.bear i).aux.gen →
      (∀ e l, e ≠ i → a.stamp e l = T.aux.stamp e l) → AuxCalm V T.aux a := by
    intro a hg hst j hj
    have hji : j ≠ i := by
      rintro rfl
      rw [node_type] at hj
      exact hj hfree
    rw [hg]
    exact ⟨if_neg hji, fun k => hst j k hji⟩
  -- the entry in the parent
  have henter : ∀ s' a W n I, During sb t s' (T.withAux a) W
      (.hold b [(ip, i), (dp, d)] [(ip, i), (dp, d)] [] n I) → n ≤ 4 → I ⊆ {d, i} →
      (∀ j, j ≠ i → W.node j = V.node j) →
      (if type = tDir then ∃ l ≤ 1, (l = 0 → i % 2 ^ 16 = 0) ∧
        W.node i = ((Node.new type major minor).enter 0 ⟨i % 2 ^ 16, strncpy dot⟩).enter l
          ⟨d % 2 ^ 16, strncpy dotdot⟩
      else W.node i = Node.new type major minor) →
      a.gen = (T.bear i).aux.gen → (∀ e l, e ≠ i → a.stamp e l = T.aux.stamp e l) →
      (type = tDir → a.stamp i 0 = a.gen (i % 2 ^ 16) ∧ a.stamp i 1 = a.gen (d % 2 ^ 16) ∨
        i % 2 ^ 16 = 0) →
      wp (store t) err (createEnter dp ip name type i) Q s' := by
    intro s' a W n I hd' hn hI hnode hchild hg hst hown
    have hdW : (W.ino d).type = tDir := by rw [← node_type, hnode d hdi, node_type, hdir]
    have hI' : insert d I ⊆ {d, i} := Finset.insert_subset (by simp) hI
    refine createEnter_during hd' hu hdW hlt.2 hroom (fun s'' X hd'' hnode' ht => ?_)
      fun s'' U X l hd'' hv hnode' hparent hUX => ?_
    · refine hfail s'' a X (hd''.dropPins _ (by omega) (Finset.insert_subset (by simp) hI'))
        (fun j => ?_) (hcalm a hg hst)
      by_cases hj : j = i
      · rw [hj, node_of_eq ht, node_of_eq hfree]
      · rw [hnode' j hj, hnode j hj]
    · refine hdone s'' _ U X l (hd''.atMost (by omega) hI') ⟨hv.congr (hnode d hdi), hfree, hlt, fun j hji hjd => ?_,
        ?_, ?_, hg, fun e k => ?_, fun h0 => ?_⟩ hUX
      · rw [hnode' j hjd, hnode j hji]
      · rw [hparent, hnode d hdi]
      · rw [hnode' i hdi.symm]
        exact hchild
      · by_cases he : e = d ∧ k = l
        · simp only [he, and_self, if_true, Tab.withAux]
        · by_cases hei : e = i
          · rw [if_neg he, if_pos hei]
          · simp only [he, hei, if_false, Tab.withAux, hst e k hei]
      · simpa only [Tab.withAux, hdi.symm, false_and, if_false] using hown h0
  have hgen : ∀ e l, e ≠ i → (T.bear i).aux.stamp e l = T.aux.stamp e l := fun _ _ _ => rfl
  refine wp_bind (gets_during hd₂ fun m hc => ?_)
  have him : (m.itable ip).inum = i := hc.slots.name (ip, i) (.inl List.mem_cons_self)
  have hdm : (m.itable dp).inum = d :=
    hc.slots.name (dp, d) (.inl (List.mem_cons_of_mem _ List.mem_cons_self))
  have hI₁ : (insert i (insert i ∅) : Finset ℕ) ⊆ {d, i} := by simp
  simp only [id, him, hdm]
  by_cases hmk : type = tDir
  · rw [if_pos hmk]
    have ht₁ : (V₁.ino i).type = tDir := by
      rw [← node_type, hself₁]
      exact hmk
    have hsize₁ : (V₁.ino i).size = 0 := by rw [← hV₁, setIno_ino_self]; rfl
    refine wp_bind (dirlink_during hd₂ rfl List.mem_cons_self ht₁ hroom rfl
      (fun j hj => absurd hj List.not_mem_nil) hlt.2 (fun s₃ W hd₃ hnode => ?_)
      fun s₃ W k _ hoff _ hd₃ hnode hself => ?_)
    · rw [if_pos (by decide)]
      refine hbad s₃ _ W _ _ hd₃ (show 2 ≤ 6 by decide) (Finset.insert_subset (by simp) hI₁) (fun j hj => ?_)
        (hcalm _ rfl hgen)
      rw [hnode, hnode₁ j hj]
    · obtain rfl : k = 0 := by
        rw [hsize₁] at hoff
        simp only [direntSize] at hoff
        omega
      rw [if_neg (by decide)]
      have hself' : W.node i =
          (Node.new type major minor).enter 0 ⟨i % 2 ^ 16, strncpy dot⟩ := by
        rw [hself, hself₁]
        rfl
      have ht₂ : (W.ino i).type = tDir := by
        rw [← node_type, hself']
        exact hmk
      have hsize₂ : (W.ino i).size = direntSize := by
        have := congrArg Node.size hself'
        rw [node_size, if_neg (by rw [ht₂]; decide)] at this
        exact this
      have hst₂ : ∀ e l, e ≠ i →
          ((T.bear i).stampEntry i 0 (i % 2 ^ 16)).aux.stamp e l = T.aux.stamp e l :=
        fun e l he => if_neg fun h => he h.1
      have hI₂ : insert i (insert i (insert i ∅)) ⊆ ({d, i} : Finset ℕ) := by simp
      refine wp_bind (dirlink_during hd₃ rfl List.mem_cons_self ht₂ hroom rfl
        (fun j hj => absurd hj List.not_mem_nil) hdlt (fun s₄ X hd₄ hnode₄ => ?_)
        fun s₄ X k _ hoff₄ hk hd₄ hnode₄ hself₄ => ?_)
      · rw [if_pos (by decide)]
        refine hbad s₄ _ X _ _ hd₄ (show 4 ≤ 6 by decide) (Finset.insert_subset (by simp) hI₂)
          (fun j hj => ?_) (hcalm _ rfl hst₂)
        rw [hnode₄, hnode j hj, hnode₁ j hj]
      · rw [if_neg (by decide)]
        have hk1 : k ≤ 1 := by
          rw [hsize₂] at hoff₄
          simp only [direntSize] at hoff₄
          omega
        have hk0 : k = 0 → i % 2 ^ 16 = 0 := by
          rintro rfl
          have := hk (by rw [hsize₂]; simp)
          rwa [hself', ent_enter (Nat.mod_lt _ (by decide)), if_pos rfl] at this
        refine henter s₄ _ X _ _ hd₄ (Nat.le_refl _) (Finset.insert_subset (by simp) hI₂)
          (fun j hj => ?_) ?_ rfl (fun e l he => ?_) fun _ => ?_
        · rw [hnode₄ j hj, hnode j hj, hnode₁ j hj]
        · rw [if_pos hmk]
          refine ⟨k, hk1, hk0, ?_⟩
          rw [hself₄, hself']
          rfl
        · exact (if_neg fun h => he h.1).trans (hst₂ e l he)
        · by_cases h0 : k = 0
          · exact .inr (hk0 h0)
          · obtain rfl : k = 1 := by omega
            left
            simp [Tab.stampEntry, Tab.withAux]
  · rw [if_neg hmk]
    refine henter s₂ _ V₁ _ _ hd₂ (by decide) hI₁ hnode₁ ?_ rfl hgen fun h => absurd h hmk
    rw [if_neg hmk]
    exact hself₁

/-- `create`: it fails, or finds a file or device, or makes one. -/
theorem create_during {path : Path} {type major minor : ℕ} {Q : Option InodeId → FsSt → Prop}
    (hd : During sb t s T V (.hold b [] [] [] 0 ∅)) (htype : type ≠ 0) (htlt : type < 2 ^ 16)
    (hroom : err "iget: no inodes" ∨ T.busy + 2 < ninode)
    (hlive : err "ilock: no type" ∨ NoDangling V)
    (hnone : ∀ s' a W I, During sb t s' (T.withAux a) W (.hold b [] [] [] 6 I) → I.card ≤ 2 →
      (∀ j, W.node j = V.node j) → AuxCalm V T.aux a → Q none s')
    (hold : ∀ ip i s', During sb t s' T V (.hold b [(ip, i)] [(ip, i)] [] 0 ∅) → type = tFile →
      (V.ino i).type = tFile ∨ (V.ino i).type = tDevice → Q (some ip) s')
    (hnew : ∀ ip i s' a U W d l name I, During sb t s' (T.withAux a) W
        (.hold b [(ip, i)] [(ip, i)] [] 6 I) → I.card ≤ 2 →
      Created sb V T.aux U a d l i name type major minor → NameCalm U W → Q (some ip) s') :
    wp (store t) err (create p path type major minor) Q s := by
  have hsame : ∀ s', During sb t s' T V (.hold b [] [] [] 0 ∅) → Q none s' := fun s' hd' =>
    hnone s' T.aux V ∅ (hd'.atMost (Nat.zero_le _) (Finset.Subset.refl _)) (Nat.zero_le _) (fun _ => rfl) (.refl V _)
  refine wp_bind (namex_during hd rfl rfl rfl (fun j hj => absurd hj List.not_mem_nil)
    (hroom.imp_right fun h => Nat.lt_of_succ_lt h) hlive (fun s₁ hd₁ => wp_pure (hsame s₁ hd₁))
    fun dp d name s₁ hd₁ hdl hdir => ?_)
  have hdir := hdir rfl
  refine wp_bind (ilock_ref hd₁ List.mem_cons_self (.inr (by rw [hdir]; decide)) fun s₂ hd₂ => ?_)
  have hdlt : d < sb.ninodes := (hd₂.lt_of_lock (x := (dp, d)) List.mem_cons_self).2
  refine wp_bind (dirlookup_during hd₂ List.mem_cons_self hdir
    (hroom.imp_right fun h => Nat.lt_of_succ_lt h) (fun _ => ?_) fun k jp s₃ hent hd₃ => ?_)
  · -- a new inode
    refine wp_bind (gets_during hd₂ fun m hc => ?_)
    rw [(Core.named hc (hd₂.used_of_lock (x := (dp, d)) List.mem_cons_self)).1]
    refine wp_bind (ialloc_during hd₂ rfl (hroom.imp_right fun h => Nat.lt_of_succ_lt h) htlt ?_
      fun ip i s₃ hfree hi hilt hu hd₃ => ?_)
    · exact wp_bind (iunlockput_keep hd₂ rfl (Finset.notMem_empty _)
        (fun hp => absurd hp List.not_mem_nil) fun s₃ hd₃ => wp_pure (hsame s₃ hd₃))
    · exact createNew_during hd₃ htype hfree ⟨hi, hilt⟩ (Nat.le_zero.1 hu) hdir hdlt hroom
        (fun s' a W hd' => hnone s' a W {d, i} hd' Finset.card_le_two)
        fun s' a U W l hd' => hnew ip i s' a U W d l name {d, i} hd' Finset.card_le_two
  · -- the name is there already
    have hd₃' : During sb t s₃ T V
        (((Hand.hold b [(jp, ((V.node d).ent k).inum)] [] [] 0 ∅).take dp d).lock dp d) :=
      hd₃.arrange (List.Perm.swap _ _ _) (List.Perm.refl _) (fun _ _ hj => hj) (Nat.le_refl _)
        (Finset.Subset.refl _)
    refine wp_bind (iunlockput_keep hd₃' rfl (Finset.notMem_empty _)
      (fun hp => absurd hp List.not_mem_nil) fun s₄ hd₄ => ?_)
    refine wp_bind (ilock_ref hd₄ List.mem_cons_self (hlive.imp_right fun h => h.of_entry hdir hent)
      fun s₅ hd₅ => ?_)
    refine wp_bind (dinode_during hd₅ List.mem_cons_self ?_)
    split
    · rename_i h
      exact wp_pure (hold jp _ s₅ hd₅ h.1 h.2)
    · exact wp_bind (iunlockput_keep hd₅ rfl (Finset.notMem_empty _)
        (fun hp => absurd hp List.not_mem_nil) fun s₆ hd₆ => wp_pure (hsame s₆ hd₆))

/-! ## `sys_link` -/

/-- The end of an operation. -/
theorem finish_during {pins : List InodeId} {n : ℕ} {I : Finset ℕ} {Q : Unit → FsSt → Prop}
    (hd : During sb t s T V (.hold b [] [] pins n I)) (hb : b.Ok sb)
    (hfit : n + I.card + 1 ≤ maxopblocks) (hQ : ∀ s', During sb t s' T V (.idle b) → Q () s') :
    wp (store t) err endOp Q s :=
  endOp_fits (hd.dropPins [] (Nat.le_refl _) (Finset.Subset.refl _)) rfl hb hfit hQ

/-- An inode that has no link and that the call has not pinned is in use. -/
theorem users_of_orphan {h : Hand} (hd : During sb t s T V h) (hx : (ip, i) ∈ h.locks)
    (hfresh : i ∉ h.fresh) (hpins : h.pins = []) (howed : h.owed = []) (hn : (V.ino i).nlink = 0) :
    0 < T.users ip := by
  have ht := hd.type_ne hx
  have hpos := (hd.lt_of_lock hx).1
  obtain ⟨m, -, hc, -⟩ := hd
  obtain ⟨k, hk, -, hu⟩ := (hc.slots.orphan i hpos ht hn).resolve_left hfresh
  obtain rfl : k = ip := hc.slots.eq_of_inum (hc.slots.held _ hx).1 (hc.slots.used_of_orphan hu)
    (hk.trans (hc.slots.name _ (.inr hx)).symm)
  rw [howed, hpins] at hu
  simpa using hu

/-- `sys_link` after `bad:`. -/
theorem linkBad_during {n : ℕ} {I : Finset ℕ} {Q : ℤ → FsSt → Prop}
    (hd : During sb t s T V (.hold b [(ip, i)] [] [ip] n I)) (hb : b.Ok sb)
    (hfit : n + (insert i I).card + 1 ≤ maxopblocks) (ht : (V.ino i).type ≠ 0)
    (hlink : ((V.ino i).nlink + (2 ^ 16 - 1)) % 2 ^ 16 = 0 → 0 < T.users ip)
    (hQ : ∀ s' W, During sb t s' T W (.idle b) → (∀ j, j ≠ i → W.node j = V.node j) →
      W.node i = { V.node i with nlink := ((V.node i).nlink + (2 ^ 16 - 1)) % 2 ^ 16 } → Q (-1) s') :
    wp (store t) err (linkBad ip) Q s := by
  refine wp_bind (ilock_ref hd List.mem_cons_self (.inr ht) fun s₁ hd₁ => ?_)
  refine nlink_bind hd₁ rfl List.mem_cons_self List.mem_cons_self fun s₂ hd₂ => ?_
  have hd₂' : During sb t s₂ T _
      (((Hand.hold b [] [] [ip, ip] n (insert i I)).take ip i).lock ip i) := hd₂
  refine wp_bind (iunlockput_during hd₂' rfl (Finset.notMem_empty _) (fun s₃ hd₃ _ => ?_)
    fun _ hu s₃ W _ _ _ _ hn => ?_)
  · refine wp_bind (finish_during hd₃ hb hfit fun s₄ hd₄ => wp_pure (hQ s₄ _ hd₄ (fun j hj => node_setIno_of_ne hj) ?_))
    rw [node_setIno_nlink ht, node_of_ne ht]
  · rw [setIno_ino_self] at hn
    refine absurd ?_ hu
    unfold Hand.Used
    exact Nat.lt_of_lt_of_le (hlink hn) (Nat.le_add_right _ _)

theorem NoDangling.congr {W : Vol} (hn : NoDangling V) (htype : ∀ j, (W.ino j).type = (V.ino j).type)
    (hnode : ∀ j, (V.ino j).type = tDir → W.node j = V.node j) : NoDangling W := by
  refine ⟨by rw [htype]; exact hn.root, fun d k hd hk h0 => ?_⟩
  rw [htype] at hd
  have hsize : (W.ino d).size = (V.ino d).size := by
    have := congrArg Node.size (hnode d hd)
    rw [node_size, node_size, if_neg (by rw [htype, hd]; decide), if_neg (by rw [hd]; decide)] at this
    exact this
  rw [hsize] at hk
  rw [hnode d hd] at h0 ⊢
  rw [htype]
  exact hn.entry d k hd hk h0

/-- `sys_link`: it fails, or the file gets a further name. -/
theorem sysLink_during {old new : Option Path} {Q : ℤ → FsSt → Prop}
    (hd : During sb t s T V (.idle b)) (hb : b.Ok sb)
    (hroom : err "iget: no inodes" ∨ T.busy + 2 < ninode)
    (hlive : err "ilock: no type" ∨ NoDangling V)
    (hfail : ∀ s' W, During sb t s' T W (.idle b) → (∀ j, W.node j = V.node j) → Q (-1) s')
    (hdone : ∀ s' U W d k i name, During sb t s' (T.stampEntry d k (i % 2 ^ 16)) W (.idle b) →
      Linked V T.aux U (T.stampEntry d k (i % 2 ^ 16)).aux d k i name → NameCalm U W → Q 0 s') :
    wp (store t) err (sysLink p old new) Q s := by
  unfold sysLink
  split
  swap
  · exact wp_pure (hfail s V hd fun _ => rfl)
  rename_i old new
  have hend : ∀ s', During sb t s' T V (.hold b [] [] [] 0 ∅) →
      wp (store t) err (do endOp; return -1) Q s' := fun s' hd' =>
    wp_bind (finish_during hd' hb (by decide) fun s'' hd'' => wp_pure (hfail s'' V hd'' fun _ => rfl))
  refine wp_bind (beginOp_during hd rfl fun s₁ hd₁ => ?_)
  refine wp_bind (wp_bind (namex_during hd₁ rfl rfl rfl (fun j hj => absurd hj List.not_mem_nil)
    (hroom.imp_right fun h => Nat.lt_of_succ_lt h) hlive (fun s₂ hd₂ => wp_pure (hend s₂ hd₂))
    fun ip i _ s₂ hd₂ hil _ => wp_pure ?_))
  refine wp_bind (ilock_ref hd₂ List.mem_cons_self hil fun s₃ hd₃ => ?_)
  have ht : (V.ino i).type ≠ 0 := hd₃.type_ne (x := (ip, i)) List.mem_cons_self
  have hilt : i < sb.ninodes := (hd₃.lt_of_lock (x := (ip, i)) List.mem_cons_self).2
  have horphan : (V.ino i).nlink = 0 → 0 < T.users ip :=
    users_of_orphan hd₃ List.mem_cons_self (Finset.notMem_empty _) rfl rfl
  have hfits : (V.ino i).nlink < 2 ^ 16 := by
    obtain ⟨m, hs, -, -⟩ := hd₃
    exact hs.fits.nlink
  refine wp_bind (dinode_during hd₃ List.mem_cons_self ?_)
  by_cases hdir : (V.ino i).type = tDir
  · rw [if_pos hdir]
    exact wp_bind (iunlockput_keep hd₃ rfl (Finset.notMem_empty _)
      (fun hp => absurd hp List.not_mem_nil) fun s₄ hd₄ => hend s₄ hd₄)
  rw [if_neg hdir]
  refine nlink_bind hd₃ rfl List.mem_cons_self List.mem_cons_self fun s₄ hd₄ => ?_
  have hself : (V.setIno i { V.ino i with nlink := ((V.ino i).nlink + 1) % 2 ^ 16 }).node i =
      { V.node i with nlink := ((V.node i).nlink + 1) % 2 ^ 16 } := by
    rw [node_setIno_nlink ht, node_of_ne ht]
  have htypes : ∀ j, ((V.setIno i { V.ino i with nlink := ((V.ino i).nlink + 1) % 2 ^ 16 }).ino
      j).type = (V.ino j).type := fun j => by
    by_cases hj : j = i
    · rw [hj, setIno_ino_self]
    · rw [setIno_ino_of_ne hj]
  have hnlink : ((V.setIno i { V.ino i with nlink := ((V.ino i).nlink + 1) % 2 ^ 16 }).ino
      i).nlink = ((V.ino i).nlink + 1) % 2 ^ 16 := by rw [setIno_ino_self]
  have hnode : ∀ j, j ≠ i → (V.setIno i { V.ino i with
      nlink := ((V.ino i).nlink + 1) % 2 ^ 16 }).node j = V.node j := fun j hj => node_setIno_of_ne hj
  generalize V.setIno i _ = V₁ at hd₄ hself htypes hnlink hnode
  -- after `bad:` the link count is as before
  have hbad : ∀ s' W n I, During sb t s' T W (.hold b [(ip, i)] [] [ip] n I) →
      n + (insert i I).card + 1 ≤ maxopblocks → (∀ j, W.node j = V₁.node j) →
      wp (store t) err (linkBad ip) Q s' := by
    intro s' W n I hd' hfit hW
    have htW : (W.ino i).type = (V.ino i).type := by rw [← node_type, hW, node_type, htypes]
    have hnW : (W.ino i).nlink = ((V.ino i).nlink + 1) % 2 ^ 16 := by
      have := congrArg Node.nlink (hW i)
      rwa [node_of_ne (by rw [htW]; exact ht), node_of_ne (by rw [htypes]; exact ht), hnlink] at this
    refine linkBad_during hd' hb hfit (by rw [htW]; exact ht) (fun h0 => horphan ?_)
      fun s'' X hd'' hother hX => hfail s'' X hd'' fun j => ?_
    · rw [hnW] at h0
      omega
    · by_cases hj : j = i
      · rw [hj, hX, hW, hself]
        have : (V.node i).nlink < 2 ^ 16 := by rw [node_of_ne ht]; exact hfits
        have hmod : (((V.node i).nlink + 1) % 2 ^ 16 + (2 ^ 16 - 1)) % 2 ^ 16 = (V.node i).nlink := by
          omega
        simp only [hmod]
      · rw [hother j hj, hW, hnode j hj]
  have hd₄' : During sb t s₄ T V₁ ((Hand.hold b [(ip, i)] [] [ip] 0 (insert i ∅)).lock ip i) := hd₄
  refine wp_bind (iunlock_during hd₄' fun s₅ hd₅ _ => ?_)
  have hlive₁ : err "ilock: no type" ∨ NoDangling V₁ :=
    hlive.imp_right fun h => h.congr htypes fun j hj => hnode j fun e => hdir (e ▸ hj)
  refine wp_bind (namex_during hd₅ rfl rfl rfl (fun j hj => ?_) hroom hlive₁ (fun s₆ hd₆ => ?_)
    fun dp d name s₆ hd₆ hdl hddir => ?_)
  · rw [List.mem_singleton.1 hj]
    simp [Hand.count, Hand.hold]
  · exact hbad s₆ V₁ 0 (insert i ∅) hd₆ (by simp [maxopblocks]) fun _ => rfl
  have hddir := hddir rfl
  have hdi : d ≠ i := by
    rintro rfl
    rw [htypes] at hddir
    exact hdir hddir
  refine wp_bind (ilock_ref hd₆ List.mem_cons_self (.inr (by rw [hddir]; decide)) fun s₇ hd₇ => ?_)
  have hpd : dp ≠ ip := by
    obtain ⟨m, -, hc, -⟩ := hd₇
    rintro rfl
    exact hdi ((hc.slots.name (dp, d) (.inl List.mem_cons_self)).symm.trans
      (hc.slots.name (dp, i) (.inl (List.mem_cons_of_mem _ List.mem_cons_self))))
  refine wp_bind (gets_during hd₇ fun m hc => ?_)
  have him : (m.itable ip).inum = i :=
    hc.slots.name (ip, i) (.inl (List.mem_cons_of_mem _ List.mem_cons_self))
  have hdevd := (Core.named hc (hd₇.used_of_lock (x := (dp, d)) List.mem_cons_self)).1
  have hdevi := (Core.named hc (hd₇.used_of_mem (x := (ip, i))
    (List.mem_cons_of_mem _ List.mem_cons_self))).1
  simp only [id, him] at hdevd hdevi ⊢
  rw [if_neg (by rw [hdevd, hdevi]; exact fun h => h rfl)]
  refine wp_bind (dirlink_during hd₇ rfl List.mem_cons_self hddir hroom rfl (fun j hj => ?_) hilt
    (fun s₈ W hd₈ hW => ?_) fun s₈ W k hno hoff hk hd₈ hW hself₈ => ?_)
  · rw [List.mem_singleton.1 hj]
    simp [Hand.count, Hand.hold, Hand.take, Hand.lock]
  · rw [if_pos (by decide)]
    have hd₈' : During sb t s₈ T W
      (((Hand.hold b [(ip, i)] [] [ip] 2 (insert d (insert i ∅))).take dp d).lock dp d) := hd₈
    refine wp_bind (iunlockput_keep hd₈' rfl (Finset.notMem_empty _)
      (fun hp => absurd (List.mem_singleton.1 hp) hpd) fun s₉ hd₉ => hbad s₉ W 2 _ hd₉ ?_ hW)
    have h₁ := Finset.card_insert_le i (insert d (insert i ∅))
    have h₂ := Finset.card_insert_le d (insert i ∅)
    simp only [insert_empty_eq, Finset.card_singleton, maxopblocks] at *
    omega
  · rw [if_neg (by decide)]
    have hd₈' : During sb t s₈ (T.stampEntry d k (i % 2 ^ 16)) W
      (((Hand.hold b [(ip, i)] [] [ip] 2 (insert d (insert i ∅))).take dp d).lock dp d) := hd₈
    have hlinked : Linked V T.aux W (T.stampEntry d k (i % 2 ^ 16)).aux d k i name := by
      refine ⟨Vacant.congr ⟨hddir, hno, hoff, hk⟩ (hnode d hdi), ⟨ht, hdir⟩, fun j hji hjd => ?_, ?_,
        ?_, rfl, fun _ _ => rfl⟩
      · rw [hW j hjd, hnode j hji]
      · rw [hself₈, hnode d hdi]
        rfl
      · rw [hW i hdi.symm, hself]
    have hlast : ∀ s' X I, During sb t s' (T.stampEntry d k (i % 2 ^ 16)) X
        (.hold b [] [] [ip] 2 I) → I.card ≤ 3 → NameCalm W X →
        wp (store t) err (do endOp; return 0) Q s' := by
      intro s' X I hd' hI hcalm
      refine wp_bind (finish_during hd' hb ?_
        fun s'' hd'' => wp_pure (hdone s'' W X d k i name hd'' hlinked hcalm))
      simp only [maxopblocks]
      omega
    refine wp_bind (iunlockput_keep hd₈' rfl (Finset.notMem_empty _)
      (fun hp => absurd (List.mem_singleton.1 hp) hpd) fun s₉ hd₉ => ?_)
    have hd₉' : During sb t s₉ (T.stampEntry d k (i % 2 ^ 16)) W
      ((Hand.hold b [] [] [ip] 2 (insert d (insert i ∅))).take ip i) := hd₉
    have hcard : (insert d (insert i ∅) : Finset ℕ).card ≤ 2 := Finset.card_le_two
    refine wp_bind (iput_during hd₉' rfl ?_ (Finset.notMem_empty _)
      (fun s' hd' => hlast s' W _ hd' (by omega) (.refl W))
      fun _ _ s' X hd' _ hX ht' hn => hlast s' X _ hd' ?_ (.of_freed hX ht' hn))
    · rintro ⟨x, hx, -⟩
      exact absurd hx List.not_mem_nil
    · exact (Finset.card_insert_le _ _).trans (by simp only [Hand.hold]; omega)

/-! ## `sys_unlink` -/

theorem isdiremptyLoop_during {h : Hand} {l : List ℕ} {Q : Bool → FsSt → Prop}
    (hl : ∀ k ∈ l, direntSize * k < (V.ino i).size) (hd : During sb t s T V h)
    (hx : (ip, i) ∈ h.locks) (htype : (V.ino i).type = tDir) (hfalse : Q false s)
    (htrue : (∀ k ∈ l, ((V.node i).ent k).inum = 0) → Q true s) :
    wp (store t) err (isdiremptyLoop ip (l.map (direntSize * ·))) Q s := by
  induction l with
  | nil => exact wp_pure (htrue fun k hk => absurd hk List.not_mem_nil)
  | cons k l ih =>
    refine wp_bind (readDirent_during hd hx htype (hl k List.mem_cons_self) fun _ _ => ?_)
    simp only
    by_cases he : ((V.node i).ent k).inum = 0
    · rw [if_neg (not_not.2 he)]
      refine ih (fun j hj => hl j (List.mem_cons_of_mem _ hj)) fun hall => htrue fun j hj => ?_
      rcases List.mem_cons.1 hj with rfl | hj
      · exact he
      · exact hall j hj
    · rw [if_pos he]
      exact wp_pure hfalse

/-- `isdirempty`: whether there are entries after the first two. -/
theorem isdirempty_during {h : Hand} {Q : Bool → FsSt → Prop} (hd : During sb t s T V h)
    (hx : (ip, i) ∈ h.locks) (htype : (V.ino i).type = tDir) (hfalse : Q false s)
    (htrue : (∀ l, 2 ≤ l → direntSize * l < (V.ino i).size → ((V.node i).ent l).inum = 0) → Q true s) :
    wp (store t) err (isdirempty ip) Q s := by
  refine wp_bind (dinode_during hd hx ?_)
  exact isdiremptyLoop_during (fun k hk => (mem_offsets.1 hk).2) hd hx htype hfalse
    fun hall => htrue fun l h2 hl => hall l (mem_offsets.2 ⟨h2, hl⟩)

/-- Every inode that has a name has a link count that a `short` holds. -/
def Counted (V : Vol) : Prop :=
  ∀ d k name, (V.ino d).type = tDir → Entry V d k name → namecmp name dot ≠ 0 →
    namecmp name dotdot ≠ 0 → 0 < (V.ino ((V.node d).ent k).inum).nlink ∧
      (V.ino ((V.node d).ent k).inum).nlink < 2 ^ 15

/-- The end of `sys_unlink`: the link count of the inode. -/
theorem unlinkCount_during {pins : List InodeId} {n : ℕ} {I : Finset ℕ} {Q : ℤ → FsSt → Prop}
    (hd : During sb t s T V (.hold b [(ip, i)] [(ip, i)] pins n I)) (hb : b.Ok sb)
    (hfit : n + (insert i I).card + 1 ≤ maxopblocks) (hn : 0 < (V.ino i).nlink)
    (hn' : (V.ino i).nlink < 2 ^ 15)
    (hQ : ∀ s' W, During sb t s' T W (.idle b) →
      NameCalm (V.setIno i { V.ino i with nlink := (V.ino i).nlink - 1 }) W → Q 0 s') :
    wp (store t) err (do
      setNlink ip fun n => n + (2 ^ 16 - 1)
      iupdate ip
      iunlockput ip
      endOp
      return 0) Q s := by
  refine nlink_bind hd rfl List.mem_cons_self List.mem_cons_self fun s₁ hd₁ => ?_
  rw [show ((V.ino i).nlink + (2 ^ 16 - 1)) % 2 ^ 16 = (V.ino i).nlink - 1 by omega] at hd₁
  have hd₁' : During sb t s₁ T _
      (((Hand.hold b [] [] (ip :: pins) n (insert i I)).take ip i).lock ip i) := hd₁
  have hlast : ∀ s' X, During sb t s' T X (.hold b [] [] (ip :: pins) n (insert i I)) →
      NameCalm (V.setIno i { V.ino i with nlink := (V.ino i).nlink - 1 }) X →
      wp (store t) err (do endOp; return 0) Q s' := fun s' X hd' hcalm =>
    wp_bind (finish_during hd' hb hfit fun s'' hd'' => wp_pure (hQ s'' X hd'' hcalm))
  refine wp_bind (iunlockput_during hd₁' rfl (Finset.notMem_empty _)
    (fun s₂ hd₂ _ => hlast s₂ _ hd₂ (.refl _)) fun _ _ s₂ W hd₂ _ hnode ht hn => ?_)
  refine hlast s₂ W (hd₂.atMost (Nat.le_refl _) ?_) (.of_freed hnode ht hn)
  exact Finset.insert_subset (Finset.mem_insert_self _ _) (Finset.Subset.refl _)

/-- `sys_unlink` from `memset(&de, 0, sizeof(de))` on. -/
theorem unlinkEntry_during {k : ℕ} {name : Name} {Q : ℤ → FsSt → Prop}
    (hd : During sb t s T V (.hold b [(ip, i), (dp, d)] [(ip, i), (dp, d)] [] 0 ∅)) (hb : b.Ok sb)
    (hdir : (V.ino d).type = tDir) (hent : Entry V d k name) (hi : ((V.node d).ent k).inum = i)
    (hproper : namecmp name dot ≠ 0 ∧ namecmp name dotdot ≠ 0)
    (hn : 0 < (V.ino i).nlink ∧ (V.ino i).nlink < 2 ^ 15)
    (hempty : (V.ino i).type = tDir → ∀ l, 2 ≤ l → direntSize * l < (V.ino i).size →
      ((V.node i).ent l).inum = 0)
    (hQ : ∀ s' U W, During sb t s' T W (.idle b) → Unlinked V U d k i name → NameCalm U W → Q 0 s') :
    wp (store t) err (unlinkEntry dp ip (direntSize * k)) Q s := by
  obtain ⟨hpd, hid⟩ : ip ≠ dp ∧ i ≠ d :=
    DuringIn.ne_of_locks (h := .hold b [(ip, i), (dp, d)] [] [] 0 ∅) hd
  have ht : (V.ino i).type ≠ 0 := hd.type_ne (x := (ip, i)) List.mem_cons_self
  have hnum : 0 < sb.ninodes := by
    have := (hd.lt_of_lock (x := (ip, i)) List.mem_cons_self).2
    omega
  have hx : (dp, d) ∈ (Hand.hold b [(ip, i), (dp, d)] [(ip, i), (dp, d)] [] 0 ∅).locks :=
    List.mem_cons_of_mem _ List.mem_cons_self
  refine wp_bind (writeEntry_during hd rfl hx hdir hnum (fun s₁ W r _ hlt _ _ => ?_)
    fun s₁ W hoff hd₁ hnode hself => ?_)
  · have := hent.1
    simp only [direntSize] at *
    omega
  rw [if_neg (by decide)]
  have htW : (W.ino i).type = (V.ino i).type := by rw [← node_type, hnode i hid, node_type]
  have hdW : (W.ino d).type ≠ 0 := hd₁.type_ne hx
  have hnW : (W.ino i).nlink = (V.ino i).nlink := by
    have := congrArg Node.nlink (hnode i hid)
    rwa [node_of_ne (by rw [htW]; exact ht), node_of_ne ht] at this
  have hlinkd : (W.ino d).nlink = (V.node d).nlink := by
    have := congrArg Node.nlink hself
    rw [node_of_ne hdW] at this
    exact this
  refine wp_bind (dinode_during hd₁ List.mem_cons_self ?_)
  -- with the link count of the parent as it should be
  have hrest : ∀ s' X pins, During sb t s' T X
        (.hold b [(ip, i), (dp, d)] [(ip, i), (dp, d)] pins 2 {d}) →
      (∀ j, j ≠ d → X.node j = V.node j) → X.ino i = W.ino i →
      X.node d = { (V.node d).clear k with nlink := if (V.ino i).type = tDir then
        ((V.node d).nlink + (2 ^ 16 - 1)) % 2 ^ 16 else (V.node d).nlink } →
      wp (store t) err (do
        iunlockput dp
        setNlink ip fun n => n + (2 ^ 16 - 1)
        iupdate ip
        iunlockput ip
        endOp
        return 0) Q s' := by
    intro s' X pins hd' hX hXi hXd
    have hunl : Unlinked V (X.setIno i { X.ino i with nlink := (X.ino i).nlink - 1 }) d k i name := by
      refine ⟨hdir, ⟨hent, hi⟩, hproper, ⟨ht, hn⟩, hempty, hid.symm, fun j hji hjd => ?_, ?_, ?_⟩
      · rw [node_setIno_of_ne hji, hX j hjd]
      · rw [node_setIno_of_ne hid.symm, hXd]
      · rw [node_setIno_nlink (by rw [hXi, htW]; exact ht), hX i hid, hXi, hnW, node_of_ne ht]
    have hd'' : During sb t s' T X
        (((Hand.hold b [(ip, i)] [(ip, i)] pins 2 {d}).take dp d).lock dp d) :=
      hd'.arrange (List.Perm.swap _ _ _) (List.Perm.swap _ _ _) (fun _ _ hj => hj) (Nat.le_refl _)
        (Finset.Subset.refl _)
    have hcard : ∀ J : Finset ℕ, J ⊆ {d} → 2 + (insert i J).card + 1 ≤ maxopblocks := fun J hJ => by
      have h₁ := Finset.card_insert_le i J
      have h₂ := Finset.card_le_card hJ
      simp only [Finset.card_singleton, maxopblocks] at *
      omega
    refine wp_bind (iunlockput_during hd'' rfl (Finset.notMem_empty _) (fun s₂ hd₂ _ => ?_)
      fun _ _ s₂ Y hd₂ hino hY htY hnY => ?_)
    · exact unlinkCount_during hd₂ hb (hcard _ (Finset.Subset.refl _)) (by rw [hXi, hnW]; exact hn.1)
        (by rw [hXi, hnW]; exact hn.2) fun s₃ Z hd₃ hcalm => hQ s₃ _ Z hd₃ hunl hcalm
    · refine unlinkCount_during hd₂ hb (hcard _ (by simp [Hand.hold]))
        (by rw [hino i hid, hXi, hnW]; exact hn.1) (by rw [hino i hid, hXi, hnW]; exact hn.2)
        fun s₃ Z hd₃ hcalm => hQ s₃ _ Z hd₃ hunl (NameCalm.trans ?_ hcalm)
      refine .of_freed (i := d) (fun j hj => ?_) ?_ ?_
      · by_cases hji : j = i
        · rw [hji, node_setIno_nlink (by rw [hino i hid, hXi, htW]; exact ht),
            node_setIno_nlink (by rw [hXi, htW]; exact ht), hY i hid, hino i hid]
        · rw [node_setIno_of_ne hji, node_setIno_of_ne hji, hY j hj]
      · rw [setIno_ino_of_ne hid.symm]
        exact htY
      · rw [setIno_ino_of_ne hid.symm]
        exact hnY
  have hd₁' : During sb t s₁ T W (.hold b [(ip, i), (dp, d)] [(ip, i), (dp, d)] [] 2 {d}) := hd₁
  split
  · rename_i hdirW
    rw [htW] at hdirW
    refine nlink_bind hd₁' rfl hx (List.mem_cons_of_mem _ List.mem_cons_self) fun s₂ hd₂ => ?_
    refine hrest s₂ _ [dp] (hd₂.atMost (Nat.le_refl _) (Finset.insert_subset (by simp) (Finset.Subset.refl _))) (fun j hj => ?_)
      (setIno_ino_of_ne hid) ?_
    · rw [node_setIno_of_ne hj, hnode j hj]
    · rw [node_setIno_nlink hdW, hself, if_pos hdirW, hlinkd]
      rfl
  · rename_i hdirW
    rw [htW] at hdirW
    refine hrest s₁ W [] hd₁' hnode rfl ?_
    rw [hself, if_neg hdirW]
    rfl

/-- `sys_unlink`: it fails, or a name is removed. -/
theorem sysUnlink_during {path : Option Path} {Q : ℤ → FsSt → Prop}
    (hd : During sb t s T V (.idle b)) (hb : b.Ok sb)
    (hroom : err "iget: no inodes" ∨ T.busy + 2 < ninode)
    (hlive : err "ilock: no type" ∨ NoDangling V)
    (hlinks : err "unlink: nlink < 1" ∨ Counted V)
    (hfail : ∀ s', During sb t s' T V (.idle b) → Q (-1) s')
    (hdone : ∀ s' U W d k i name, During sb t s' T W (.idle b) → Unlinked V U d k i name →
      NameCalm U W → Q 0 s') :
    wp (store t) err (sysUnlink p path) Q s := by
  unfold sysUnlink
  split
  · exact wp_pure (hfail s hd)
  rename_i path
  have hend : ∀ s', During sb t s' T V (.hold b [] [] [] 0 ∅) →
      wp (store t) err (do endOp; return -1) Q s' := fun s' hd' =>
    wp_bind (finish_during hd' hb (by decide) fun s'' hd'' => wp_pure (hfail s'' hd''))
  refine wp_bind (beginOp_during hd rfl fun s₁ hd₁ => ?_)
  refine wp_bind (namex_during hd₁ rfl rfl rfl (fun j hj => absurd hj List.not_mem_nil)
    (hroom.imp_right fun h => Nat.lt_of_succ_lt h) hlive (fun s₂ hd₂ => hend s₂ hd₂)
    fun dp d name s₂ hd₂ _ hdir => ?_)
  have hdir := hdir rfl
  have hbad : ∀ s', During sb t s' T V (.hold b [(dp, d)] [(dp, d)] [] 0 ∅) →
      wp (store t) err (unlinkBad dp) Q s' := fun s' hd' =>
    wp_bind (iunlockput_keep (h := .hold b [] [] [] 0 ∅) hd' rfl (Finset.notMem_empty _)
      (fun hp => absurd hp List.not_mem_nil) hend)
  refine wp_bind (ilock_ref hd₂ List.mem_cons_self (.inr (by rw [hdir]; decide)) fun s₃ hd₃ => ?_)
  split
  · exact hbad s₃ hd₃
  rename_i hproper
  rw [not_or] at hproper
  refine wp_bind (dirlookup_during hd₃ List.mem_cons_self hdir
    (hroom.imp_right fun h => Nat.lt_of_succ_lt h) (fun _ => hbad s₃ hd₃) fun k ip s₄ hent hd₄ => ?_)
  refine wp_bind (ilock_ref hd₄ List.mem_cons_self (hlive.imp_right fun h => h.of_entry hdir hent)
    fun s₅ hd₅ => ?_)
  generalize hi : ((V.node d).ent k).inum = i at hd₅
  have hd₅' : During sb t s₅ T V (.hold b [(ip, i), (dp, d)] [(ip, i), (dp, d)] [] 0 ∅) := hd₅
  refine wp_bind (dinode_during hd₅' List.mem_cons_self ?_)
  split
  · rename_i hbadn
    refine panic_wp (hlinks.resolve_right fun hc => ?_)
    have := hc d k name hdir hent hproper.1 hproper.2
    rw [hi] at this
    omega
  · rename_i hn
    have hn' : 0 < (V.ino i).nlink ∧ (V.ino i).nlink < 2 ^ 15 := by omega
    split
    · rename_i hidir
      refine wp_bind (isdirempty_during hd₅' List.mem_cons_self hidir ?_ fun hempty => ?_)
      · rw [if_neg (by decide)]
        have hd₅'' : During sb t s₅ T V
          (((Hand.hold b [(dp, d)] [(dp, d)] [] 0 ∅).take ip i).lock ip i) := hd₅'
        exact wp_bind (iunlockput_keep hd₅'' rfl (Finset.notMem_empty _)
          (fun hp => absurd hp List.not_mem_nil) fun s₆ hd₆ => hbad s₆ hd₆)
      · rw [if_pos rfl]
        exact unlinkEntry_during hd₅' hb hdir hent hi hproper hn' (fun _ => hempty)
          fun s' U W hd' => hdone s' U W d k i name hd'
    · rename_i hidir
      exact unlinkEntry_during hd₅' hb hdir hent hi hproper hn' (fun h => absurd h hidir)
        fun s' U W hd' => hdone s' U W d k i name hd'

end Fs

end Xv6
