import Xv6.Mkfs.Append

/-!
# The image under construction

What `main` keeps true of the image while there are inodes left: blocks are owned exactly, files
are packed (`Sound`), and the root directory lists inodes that have been handed out (`Listed`).
-/

namespace Xv6

open Vol Fs Own

/-! ## Nodes of directories -/

namespace Node

variable {nd : Node} {m e : ℕ} {de : Dirent}

/-- An entry before the place where another is written. -/
theorem ent_write_of_lt (h : e < m) (p : ℕ → UInt8) (n : ℕ) :
    (nd.write (direntSize * m) n p).ent e = nd.ent e := by
  refine Dirent.decode_congr fun j hj => ?_
  simp only [Node.write, direntSize] at *
  rw [if_neg (by omega)]

/-- The entry that is written. -/
theorem ent_write_self (h : de.inum < 2 ^ 16) :
    (nd.write (direntSize * m) direntSize de.encode).ent m = de := by
  refine (Dirent.decode_congr fun j hj => ?_).trans (Dirent.decode_encode h)
  simp only [Node.write, direntSize] at *
  rw [if_pos (by omega)]
  congr 1
  omega

end Node

namespace Mkfs

namespace Image

variable {s s' : Image} {i j n : ℕ} {d : Dinode} {p : ℕ → UInt8}

/-! ## Inodes handed out -/

theorem winode_freeinode (h : s.winode i d = some s') : s'.freeinode = s.freeinode := by
  obtain ⟨x, -, rfl⟩ := Option.map_eq_some_iff.1 h
  rfl

theorem appendLoop_freeinode {k off off' : ℕ} {din din' : Dinode}
    (h : appendLoop k n p din off s = some (din', off', s')) : s'.freeinode = s.freeinode := by
  induction k generalizing n p din off s with
  | zero =>
    obtain ⟨rfl, rfl, rfl⟩ : din = din' ∧ off = off' ∧ s = s' := by simpa [appendLoop] using h
    rfl
  | succ k ih =>
    rw [appendLoop] at h
    split at h
    · obtain ⟨rfl, rfl, rfl⟩ : din = din' ∧ off = off' ∧ s = s' := by simpa using h
      rfl
    · split at h
      · obtain ⟨⟨x, din₁, s₁⟩, hb, h⟩ := Option.bind_eq_some_iff.1 h
        obtain ⟨buf, hr, h⟩ := Option.bind_eq_some_iff.1 h
        exact (ih h).trans (blockAt_frame hb).2
      · cases h

theorem iappend_freeinode (h : s.iappend i p n = some s') : s'.freeinode = s.freeinode := by
  obtain ⟨din, -, h⟩ := Option.bind_eq_some_iff.1 h
  obtain ⟨⟨din', off, s₁⟩, hl, h⟩ := Option.bind_eq_some_iff.1 h
  exact (winode_freeinode h).trans (appendLoop_freeinode hl)

theorem ialloc_freeinode {ty : ℕ} (h : s.ialloc ty = some s') :
    s'.freeinode = s.freeinode + 1 := winode_freeinode h

theorem appendChunks_freeinode {cs : List (List UInt8)} (h : appendChunks i cs s = some s') :
    s'.freeinode = s.freeinode := by
  induction cs generalizing s with
  | nil =>
    obtain rfl := Option.some.inj h
    rfl
  | cons c cs ih =>
    obtain ⟨s₁, h₁, h⟩ := Option.bind_eq_some_iff.1 h
    exact (ih h).trans (iappend_freeinode h₁)

/-- The steps of a turn of the loop of `main`. -/
theorem addFile_steps {f : HostFile} (h : s.addFile f = some s') :
    ∃ s₁ s₂, s.ialloc tFile = some s₁ ∧
      s₁.addEntry s.freeinode (nameOf (shortname f.path)) = some s₂ ∧
      appendChunks s.freeinode f.chunks s₂ = some s' := by
  unfold addFile at h
  split at h
  · cases h
  · split at h
    · cases h
    · split at h
      · cases h
      · obtain ⟨s₁, h₁, h⟩ := Option.bind_eq_some_iff.1 h
        obtain ⟨s₂, h₂, h⟩ := Option.bind_eq_some_iff.1 h
        exact ⟨s₁, s₂, h₁, h₂, h⟩

theorem addFiles_freeinode {files : List HostFile} (h : s.addFiles files = some s') :
    s'.freeinode = s.freeinode + files.length := by
  induction files generalizing s with
  | nil =>
    obtain rfl := Option.some.inj h
    rfl
  | cons f files ih =>
    obtain ⟨s₁, h₁, h⟩ := Option.bind_eq_some_iff.1 h
    obtain ⟨t₁, t₂, ha, he, hc⟩ := addFile_steps h₁
    rw [ih h, appendChunks_freeinode hc, iappend_freeinode he, ialloc_freeinode ha,
      List.length_cons]
    omega

/-! ## The invariant -/

/-- What every step of `main` keeps true of the image. -/
structure Sound (s : Image) : Prop where
  ready : Ready s
  ok : VolOk sb s.vol
  inodes : s.freeinode ≤ ninodes
  typed : ∀ i, (s.vol.ino i).type ≠ 0 ↔ 1 ≤ i ∧ i < s.freeinode
  packed : ∀ i, (s.vol.ino i).type ≠ 0 → Packed s.vol i (s.vol.ino i).size

theorem fits_vol (s : Image) (i : ℕ) : (s.vol.ino i).Fits := by
  unfold vol
  simp only
  split
  · exact fits_getDinode _ _
  · exact ⟨by decide, by decide, by decide, by decide, by decide, fun _ => by simp [Dinode.zero]⟩

/-- The inode with its new size, once the bytes are there. -/
theorem Appended.close {din' : Dinode} {sz : ℕ} (h : Sound s) (ht : (s.vol.ino i).type ≠ 0)
    (hsz : sz = (s.vol.ino i).size) (hmax : sz + n ≤ maxfile * bsize)
    (a : Appended s (s.vol.ino i) i sz n p din' s') :
    let W := s'.vol.setIno i { din' with size := sz + n }
    VolOk sb W ∧ Packed W i (sz + n) ∧ Apart s.vol W i ∧
      W.node i = (s.vol.node i).write sz n p ∧ ∀ j, j ≠ i → W.node j = s.vol.node j := by
  intro W
  obtain ⟨-, ok, w, hap, pk⟩ := a
  rw [setIno_eq_self rfl] at w hap
  have hdin : din' = { s.vol.ino i with addrs := din'.addrs } := by simpa using w.self
  have ht' : din'.type ≠ 0 := by
    rw [hdin]
    exact ht
  have hW : W = (s'.vol.setIno i din').setIno i { din' with size := sz + n } := by
    rw [setIno_setIno]
  have haddrs : ({ din' with size := sz + n } : Dinode).addrs =
      ((s'.vol.setIno i din').ino i).addrs := by simp
  have hino : W.ino i = { din' with size := sz + n } := setIno_ino_self
  have hk : ∀ {o}, o < sz + n → o / bsize < maxfile := fun {o} ho => by
    simp only [maxfile, bsize] at *
    omega
  refine ⟨?_, ⟨fun k hk => ?_, fun o ho hmax hx => ?_⟩, ?_, ?_, fun j hj => ?_⟩
  · rw [hW]
    refine ok.setIno (by simpa using ht') ht' (by simp) haddrs hmax fun k hk => ?_
    exact (pk.exact k (by simp only [maxfile, bsize] at *; omega)).2 hk
  · rw [hW, ref_setIno_of_addrs haddrs]
    exact pk.exact k hk
  · rw [hW, ref_setIno_of_addrs haddrs] at hx
    rw [hW, byte_setIno_of_addrs haddrs]
    exact pk.tail o ho hmax hx
  · rw [hW]
    exact hap.trans (.setIno _ i _)
  · have hbyte : ∀ o < sz + n, W.byte i o = if sz ≤ o then p (o - sz) else s.vol.byte i o :=
      fun o ho => by
        rw [hW, byte_setIno_of_addrs haddrs, w.byte (fun _ _ => id) o (hk ho)]
        · exact if_congr (by omega) rfl rfl
        · by_cases hlt : sz ≤ o
          · exact .inr ⟨hlt, ho⟩
          · refine .inl (((h.packed i ht).exact _ (hk ho)).2 ?_)
            simp only [bsize]
            omega
    rw [node_of_ne ht, node_of_ne (by rw [hino]; exact ht'), hino, hdin, Node.write]
    congr 1
    · simp only
      omega
    · funext o
      simp only
      by_cases ho : o < sz + n
      · rw [if_pos ho, hbyte o ho]
        by_cases hlt : sz ≤ o
        · rw [if_pos hlt, if_pos ⟨hlt, ho⟩]
        · rw [if_neg hlt, if_neg (by omega), if_pos (by omega)]
      · rw [if_neg ho, if_neg (by omega), if_neg (by omega)]
  · rw [hW, node_setIno_of_ne hj]
    exact w.node j hj

/-- `iappend` appends to one file. -/
theorem Sound.iappend (h : Sound s) (hi : 1 ≤ i) (hlt : i < s.freeinode)
    (ha : s.iappend i p n = some s') :
    Sound s' ∧ s'.vol.node i = (s.vol.node i).write (s.vol.node i).size n p ∧
      ∀ j, j ≠ i → s'.vol.node j = s.vol.node j := by
  have hin : i < ninodes := hlt.trans_le h.inodes
  have ht : (s.vol.ino i).type ≠ 0 := (h.typed i).2 ⟨hi, hlt⟩
  have hf := iappend_freeinode ha
  obtain ⟨din, hd, ha⟩ := Option.bind_eq_some_iff.1 ha
  obtain ⟨⟨din', off, s₁⟩, hl, ha⟩ := Option.bind_eq_some_iff.1 ha
  rw [h.ready.rinode hin] at hd
  obtain rfl := Option.some.inj hd
  have hself : s.vol.setIno i (s.vol.ino i) = s.vol := setIno_eq_self rfl
  obtain ⟨a, rfl, hmax⟩ := appendLoop_spec h.ready (by rw [hself]; exact h.ok) ht
    (by rw [hself]; exact h.packed i ht) (Nat.le_refl n) hl
  have hsize : (s.vol.ino i).size + n ≤ maxfile * bsize := by
    by_cases hn : n = 0
    · have := (h.ok.filled i ht).size
      omega
    · exact hmax hn
  obtain ⟨ok, pk, hap, hnode, hother⟩ := a.close h ht rfl hsize
  have hdin : din'.type = (s.vol.ino i).type := by simpa using a.wrote.type
  have hfits : ({ din' with size := (s.vol.ino i).size + n } : Dinode).Fits := by
    have hv := fits_vol s i
    have hw : din' = { s.vol.ino i with addrs := din'.addrs } := by simpa using a.wrote.self
    have haddr := a.ok.addrs_lt (i := i) layout_sb (by simpa [hdin] using ht)
    rw [setIno_ino_self] at haddr
    rw [hw] at haddr ⊢
    refine ⟨hv.type, hv.major, hv.minor, hv.nlink, ?_, haddr⟩
    simp only [maxfile, bsize] at *
    omega
  obtain ⟨hr, hvol, -⟩ := a.ready.winode hin hfits ha
  have hnsize : (s.vol.node i).size = (s.vol.ino i).size := by rw [node_of_ne ht]
  rw [← hvol] at ok pk hap hnode hother
  have hino : s'.vol.ino i = { din' with size := (s.vol.ino i).size + n } := by
    rw [hvol]
    exact setIno_ino_self
  refine ⟨⟨hr, ok, by rw [hf]; exact h.inodes, fun j => ?_, fun j htj => ?_⟩, ?_, hother⟩
  · rw [hf, ← h.typed j]
    by_cases hj : j = i
    · subst hj
      rw [hino, hdin]
    · rw [hap.ino j hj]
  · by_cases hj : j = i
    · subst hj
      rw [hino]
      exact pk
    · rw [hap.ino j hj] at htj ⊢
      exact (h.packed j htj).of_apart hap hj htj
  · rw [hnsize]
    exact hnode

/-- `ialloc` makes an empty file. -/
theorem Sound.ialloc {ty : ℕ} (h : Sound s) (hlt : s.freeinode < ninodes) (hpos : 1 ≤ s.freeinode)
    (hty : ty ≠ 0) (hty' : ty < 256 ^ 2) (ha : s.ialloc ty = some s') :
    Sound s' ∧ s'.vol.node s.freeinode = ⟨ty, 0, 0, 1, 0, fun _ => 0⟩ ∧
      ∀ j, j ≠ s.freeinode → s'.vol.node j = s.vol.node j := by
  have hf := ialloc_freeinode ha
  have hfree : (s.vol.ino s.freeinode).type = 0 := by
    by_contra hne
    have := ((h.typed _).1 hne).2
    omega
  have hready : Ready { s with freeinode := s.freeinode + 1 } := ⟨h.ready.1, h.ready.2, h.ready.3, h.ready.4⟩
  obtain ⟨hr, hvol, -⟩ := hready.winode hlt
    ⟨hty', by simp, by simp, by simp, by simp, fun _ => by simp⟩ ha
  have hvol : s'.vol = s.vol.setIno s.freeinode ⟨ty, 0, 0, 1, 0, fun _ => 0⟩ := hvol
  have hap : Apart s.vol s'.vol s.freeinode := by
    rw [hvol]
    exact .setIno _ _ _
  have hino : s'.vol.ino s.freeinode = ⟨ty, 0, 0, 1, 0, fun _ => 0⟩ := by
    rw [hvol, setIno_ino_self]
  have href : ∀ x, s'.vol.ref s.freeinode x = 0 := fun x => by
    cases x with
    | addr k => rw [Vol.ref, hino]
    | leaf l => exact ref_leaf_of_zero (by rw [hino])
  refine ⟨⟨hr, ⟨?_, ?_, fun j htj => ?_, fun j htj => ?_⟩, by omega, fun j => ?_, fun j htj => ?_⟩,
    ?_, fun j hj => ?_⟩
  · rw [hvol]
    exact h.ok.owned.setIno_empty (.inl hfree) fun _ => rfl
  · rw [hvol]
    exact h.ok.marked
  · by_cases hj : j = s.freeinode
    · subst hj
      refine ⟨?_, fun k hk => ?_⟩
      · rw [hino]
        exact Nat.zero_le _
      · rw [hino] at hk
        exact absurd hk (Nat.not_lt_zero _)
    · rw [hap.ino j hj] at htj
      refine ⟨?_, fun k hk => ?_⟩
      · rw [hap.ino j hj]
        exact (h.ok.filled j htj).size
      · rw [hap.ino j hj] at hk
        rw [hap.ref j hj htj]
        exact (h.ok.filled j htj).block k hk
  · exact ⟨fun _ => id, fun _ _ _ => id⟩
  · rw [hf]
    by_cases hj : j = s.freeinode
    · subst hj
      rw [hino]
      exact ⟨fun _ => ⟨hpos, Nat.lt_succ_self _⟩, fun _ => hty⟩
    · rw [hap.ino j hj, h.typed j]
      omega
  · by_cases hj : j = s.freeinode
    · subst hj
      rw [hino]
      refine ⟨fun k _ => ?_, fun o _ _ hx => absurd (href _) hx⟩
      rw [href]
      simp
    · rw [hap.ino j hj] at htj ⊢
      exact (h.packed j htj).of_apart hap hj htj
  · rw [node_of_ne (by rw [hino]; exact hty), hino]
    simp
  · rw [hvol]
    exact node_setIno_of_ne hj

/-! ## The root directory -/

/-- The root is the only directory, with `m` entries, all of them for inodes handed out. -/
structure Listed (s : Image) (m : ℕ) : Prop where
  sound : Sound s
  dir : ∀ i, (s.vol.node i).type = tDir ↔ i = rootino
  size : (s.vol.node rootino).size = direntSize * m
  ents : ∀ e < m, 1 ≤ ((s.vol.node rootino).ent e).inum ∧
    ((s.vol.node rootino).ent e).inum < s.freeinode

namespace Listed

variable {m : ℕ}

theorem type_ne (h : Listed s m) : (s.vol.ino rootino).type ≠ 0 := by
  rw [← node_type, (h.dir rootino).2 rfl]
  decide

theorem root_lt (h : Listed s m) : rootino < s.freeinode :=
  ((h.sound.typed rootino).1 h.type_ne).2

/-- A file is allocated. -/
theorem ialloc (h : Listed s m) (hlt : s.freeinode < ninodes) (ha : s.ialloc tFile = some s') :
    Listed s' m := by
  obtain ⟨hs, hnew, hother⟩ := h.sound.ialloc hlt h.root_lt.le (by decide) (by decide) ha
  have hroot := hother rootino h.root_lt.ne
  refine ⟨hs, fun i => ?_, by rw [hroot]; exact h.size, fun e he => ?_⟩
  · by_cases hi : i = s.freeinode
    · rw [hi, hnew]
      refine ⟨fun e => absurd e (by decide), fun e => absurd e h.root_lt.ne'⟩
    · rw [hother i hi]
      exact h.dir i
  · rw [hroot, ialloc_freeinode ha]
    have := h.ents e he
    omega

/-- An entry is appended to the root directory. -/
theorem addEntry {inum : ℕ} {name : Name} (h : Listed s m) (h₁ : 1 ≤ inum)
    (h₂ : inum < s.freeinode) (ha : s.addEntry inum name = some s') : Listed s' (m + 1) := by
  obtain ⟨hs, hself, hother⟩ := h.sound.iappend (Nat.le_refl 1) h.root_lt ha
  have hinum : inum % 2 ^ 16 = inum := by
    have := h.sound.inodes
    simp only [ninodes] at this
    omega
  rw [h.size] at hself
  refine ⟨hs, fun i => ?_, ?_, fun e he => ?_⟩
  · by_cases hi : i = rootino
    · rw [hi, hself]
      exact h.dir rootino
    · rw [hother i hi]
      exact h.dir i
  · rw [hself]
    simp only [Node.write, h.size, direntSize]
    omega
  · rw [hself, iappend_freeinode ha]
    by_cases hem : e = m
    · subst hem
      rw [Node.ent_write_self (Nat.mod_lt _ (by decide)), hinum]
      exact ⟨h₁, h₂⟩
    · rw [Node.ent_write_of_lt (by omega)]
      exact h.ents e (by omega)

/-- A file gets its contents. -/
theorem appendChunks {cs : List (List UInt8)} (h : Listed s m) (hi : rootino < i)
    (hlt : i < s.freeinode) (ha : appendChunks i cs s = some s') : Listed s' m := by
  induction cs generalizing s with
  | nil =>
    obtain rfl := Option.some.inj ha
    exact h
  | cons c cs ih =>
    obtain ⟨s₁, h₁, ha⟩ := Option.bind_eq_some_iff.1 ha
    obtain ⟨hs, hself, hother⟩ := h.sound.iappend (Nat.le_of_lt hi) hlt h₁
    have hroot := hother rootino hi.ne
    have hf := iappend_freeinode h₁
    refine ih ⟨hs, fun j => ?_, by rw [hroot]; exact h.size, by rw [hroot, hf]; exact h.ents⟩
      (by rw [hf]; exact hlt) ha
    by_cases hj : j = i
    · subst hj
      rw [hself]
      exact h.dir j
    · rw [hother j hj]
      exact h.dir j

theorem addFile {f : HostFile} (h : Listed s m) (hlt : s.freeinode < ninodes)
    (ha : s.addFile f = some s') : Listed s' (m + 1) := by
  obtain ⟨s₁, s₂, h₁, h₂, h₃⟩ := addFile_steps ha
  have hf₁ := ialloc_freeinode h₁
  have hf₂ := iappend_freeinode h₂
  have hroot := h.root_lt
  exact ((h.ialloc hlt h₁).addEntry hroot.le (by omega) h₂).appendChunks hroot (by omega) h₃

theorem addFiles {files : List HostFile} (h : Listed s m)
    (hlt : s.freeinode + files.length ≤ ninodes) (ha : s.addFiles files = some s') :
    Listed s' (m + files.length) := by
  induction files generalizing s m with
  | nil =>
    obtain rfl := Option.some.inj ha
    exact h
  | cons f files ih =>
    rw [List.length_cons] at hlt ⊢
    obtain ⟨s₁, h₁, ha⟩ := Option.bind_eq_some_iff.1 ha
    have hf := addFiles_freeinode (show s.addFiles [f] = some s₁ by simp [Image.addFiles, h₁])
    rw [List.length_singleton] at hf
    have := ih (h.addFile (by omega) h₁) (by omega) ha
    rwa [Nat.add_assoc, Nat.add_comm 1] at this

end Listed

end Image

/-! ## The start -/

theorem vol_blank_ino (i : ℕ) : blank.vol.ino i = .zero := by
  have hne : iblock i sb ≠ 1 := by
    have hle : 33 ≤ iblock i sb := Nat.le_add_left _ _
    omega
  unfold Image.vol
  simp only
  split
  · have hb : blank.blk (iblock i sb) = .zero _ := by
      simp [blank, Image.wsect, hne]
    rw [hb]
    simp [getDinode, Dinode.zero, Bytes.rd]
  · rfl

theorem sound_blank : Image.Sound blank := by
  have htype : ∀ i, (blank.vol.ino i).type = 0 := fun i => by rw [vol_blank_ino]; rfl
  have hready : Image.Ready blank := by
    refine ⟨rfl, Nat.le_refl _, fun b hb => ?_, rfl⟩
    have hb : nmeta ≤ b := hb
    have hne : b ≠ 1 := by
      rintro rfl
      exact absurd hb (by decide)
    simp [blank, Image.wsect, hne]
  have howned : Owned sb blank.vol := by
    refine ⟨fun {x a} hx => ?_, fun {a} ha => ?_, fun {x y a} hx _ => ?_⟩
    · exact absurd (htype x.1) (holds_eq_some.1 hx).1
    · have h₁ : nmeta ≤ a := ha.1.1
      have h₂ : a < nmeta := by simpa [Image.vol, blank, Image.wsect] using ha.2
      omega
    · exact absurd (htype x.1) (holds_eq_some.1 hx).1
  refine ⟨hready, ⟨howned, fun b hb => ?_, fun i ht => absurd (htype i) ht,
    fun i ht => absurd (htype i) ht⟩, by decide, fun i => ?_, fun i ht => absurd (htype i) ht⟩
  · exact decide_eq_true hb
  · have hf : blank.freeinode = 1 := rfl
    rw [hf]
    exact ⟨fun h => absurd (htype i) h, fun h => by omega⟩

/-- The root directory, still empty. -/
theorem listed_ialloc_blank {s : Image} (ha : blank.ialloc tDir = some s) : s.Listed 0 := by
  obtain ⟨hs, hnew, hother⟩ :=
    sound_blank.ialloc (by decide) (by decide) (by decide) (by decide) ha
  have hf : blank.freeinode = rootino := rfl
  rw [hf] at hnew hother
  refine ⟨hs, fun i => ?_, by rw [hnew]; rfl, fun e he => absurd he (Nat.not_lt_zero e)⟩
  by_cases hi : i = rootino
  · rw [hi, hnew]
  · rw [hother i hi, node_type, vol_blank_ino]
    exact ⟨fun e => absurd e (by decide), fun e => absurd e hi⟩

theorem root_listed {s : Image} (h : root = some s) : s.Listed 2 ∧ s.freeinode = 2 := by
  unfold root at h
  obtain ⟨s₁, h₁, h⟩ := Option.bind_eq_some_iff.1 h
  obtain ⟨s₂, h₂, h⟩ := Option.bind_eq_some_iff.1 h
  have hf₁ : s₁.freeinode = 2 := Image.ialloc_freeinode h₁
  have hf₂ : s₂.freeinode = 2 := (Image.iappend_freeinode h₂).trans hf₁
  have hf : s.freeinode = 2 := (Image.iappend_freeinode h).trans hf₂
  have l := listed_ialloc_blank h₁
  exact ⟨(l.addEntry (Nat.le_refl 1) (by omega) h₂).addEntry (Nat.le_refl 1) (by omega) h, hf⟩

end Mkfs

end Xv6
