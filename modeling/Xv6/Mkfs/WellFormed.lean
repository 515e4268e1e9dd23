import Xv6.Mkfs.Sound

/-!
# The image that `mkfs` builds

What the kernel needs of the finished image (`WellFormed`). Nothing limits the number of files to
the number of inodes, and the size of the root directory is rounded up past its last block when
that block is full, so that the image is well-formed for some numbers of files only.
-/

namespace Xv6

open Vol Fs Own

namespace Mkfs

/-! ## The end -/

theorem getBit_foldl_setBit (x : Block) (n : ℕ) {b : ℕ} (hb : b < bpb) :
    getBit ((List.range n).foldl setBit x) b = (decide (b < n) || getBit x b) := by
  induction n with
  | zero => simp
  | succ n ih =>
    rw [List.range_succ, List.foldl_append, List.foldl_cons, List.foldl_nil, getBit_setBit _ hb, ih]
    have hlt : decide (b < n + 1) = (decide (b = n) || decide (b < n)) := by
      rw [← Bool.decide_or]
      exact decide_eq_decide.2 (by omega)
    rw [hlt, Bool.or_assoc]

namespace Image

variable {s s' : Image} {m : ℕ}

theorem Listed.fixRoot (h : s.Listed m) (hf : s.fixRoot = some s') :
    Ready s' ∧ s'.freeinode = s.freeinode ∧ s'.vol = s.vol.setIno rootino
      { s.vol.ino rootino with size := ((s.vol.ino rootino).size / bsize + 1) * bsize } := by
  unfold Image.fixRoot at hf
  rw [h.sound.ready.rinode (by decide)] at hf
  have hsize := (h.sound.ok.filled rootino h.type_ne).size
  have hv := fits_vol s rootino
  have hfits : ({ s.vol.ino rootino with
      size := ((s.vol.ino rootino).size / bsize + 1) * bsize } : Dinode).Fits :=
    ⟨hv.type, hv.major, hv.minor, hv.nlink, by simp only [maxfile, bsize] at *; omega, hv.addrs⟩
  obtain ⟨hr, hvol, hi⟩ := h.sound.ready.winode (i := rootino) (by decide) hfits hf
  exact ⟨hr, hi, hvol⟩

theorem balloc_spec {used : ℕ} (hb : s.balloc used = some s') :
    s'.vol = s.vol ∧ s'.freeinode = s.freeinode ∧ s'.freeblock = s.freeblock ∧
      s'.blk 1 = s.blk 1 ∧
      ∀ b < bpb, getBit (s'.blk (bblock b sb)) (b % bpb) = decide (b < used) := by
  unfold Image.balloc at hb
  split at hb
  · obtain rfl := Option.some.inj hb
    refine ⟨?_, rfl, rfl, rfl, fun b hb => ?_⟩
    · ext1 c
      · by_cases hc : c < ninodes
        · have := (layout_sb.iblock_lt hc).ne
          simp [vol, Image.wsect, hc, this]
        · simp [vol, Image.wsect, hc]
      · rfl
      · by_cases hd : IsData sb c
        · have : c ≠ sb.bmapstart := fun e => absurd (e ▸ hd.1) (by decide)
          simp [vol, Image.wsect, this]
        · simp [vol, hd]
      · rfl
    · have hbb : bblock b sb = sb.bmapstart := by
        unfold bblock
        rw [Nat.div_eq_of_lt hb, Nat.zero_add]
      have hz : getBit (Bytes.zero _) b = false := by simp [getBit]
      rw [hbb, Nat.mod_eq_of_lt hb]
      have hblk : (s.wsect sb.bmapstart ((List.range used).foldl setBit (.zero _))).blk
          sb.bmapstart = (List.range used).foldl setBit (.zero _) := by simp [Image.wsect]
      rw [hblk, getBit_foldl_setBit _ _ hb, hz, Bool.or_false]
  · cases hb

end Image

/-- What the kernel needs of a finished image. -/
structure WellFormed (s : Image) : Prop where
  inodes : ∀ i, 1 ≤ i → i < s.freeinode →
    i < sb.ninodes ∧ sb.inodestart ≤ iblock i sb ∧ iblock i sb < sb.bmapstart
  addrs : ∀ i x, 1 ≤ i → i < s.freeinode → s.vol.ref i x ≠ 0 →
    nmeta ≤ s.vol.ref i x ∧ s.vol.ref i x < sb.size
  once : ∀ i x j y, 1 ≤ i → i < s.freeinode → 1 ≤ j → j < s.freeinode → s.vol.ref i x ≠ 0 →
    s.vol.ref j y = s.vol.ref i x → j = i ∧ y = x
  bitmap : ∀ b < bpb, getBit (s.blk (bblock b sb)) (b % bpb) = decide (b < s.freeblock)
  blocks : ∀ i, 1 ≤ i → i < s.freeinode → ∀ k, k * bsize < (s.vol.ino i).size →
    s.vol.ref i (.ofIndex k) ≠ 0
  entries : ∀ i, 1 ≤ i → i < s.freeinode → (s.vol.ino i).type = tDir →
    ∀ e, direntSize * e < (s.vol.ino i).size → ((s.vol.node i).ent e).inum ≠ 0 →
      (s.vol.ino ((s.vol.node i).ent e).inum).type ≠ 0

theorem main_steps {files : List HostFile} {s : Image} (h : main files = some s) :
    ∃ s₀ s₁ s₂, root = some s₀ ∧ s₀.addFiles files = some s₁ ∧ s₁.fixRoot = some s₂ ∧
      s₂.balloc s₂.freeblock = some s := by
  unfold main at h
  obtain ⟨s₀, h₀, h⟩ := Option.bind_eq_some_iff.1 h
  obtain ⟨s₁, h₁, h⟩ := Option.bind_eq_some_iff.1 h
  obtain ⟨s₂, h₂, h⟩ := Option.bind_eq_some_iff.1 h
  exact ⟨s₀, s₁, s₂, h₀, h₁, h₂, h⟩

theorem fixRoot_freeinode {s s' : Image} (h : s.fixRoot = some s') :
    s'.freeinode = s.freeinode := by
  obtain ⟨din, -, h⟩ := Option.bind_eq_some_iff.1 h
  exact Image.winode_freeinode h

theorem balloc_freeinode {s s' : Image} {used : ℕ} (h : s.balloc used = some s') :
    s'.freeinode = s.freeinode := by
  unfold Image.balloc at h
  split at h
  · obtain rfl := Option.some.inj h
    rfl
  · cases h

theorem main_freeinode {files : List HostFile} {s : Image} (h : main files = some s) :
    s.freeinode = 2 + files.length := by
  obtain ⟨s₀, s₁, s₂, h₀, h₁, h₂, h₃⟩ := main_steps h
  rw [balloc_freeinode h₃, fixRoot_freeinode h₂, Image.addFiles_freeinode h₁, (root_listed h₀).2]

/-- The finished image, when there are inodes for all files: that of the last turn of the loop,
with the size of the root directory rounded up, and the free map. -/
structure Finished (s t : Image) (m : ℕ) : Prop where
  listed : t.Listed m
  count : t.freeinode = m
  freeinode : s.freeinode = m
  vol : s.vol = t.vol.setIno rootino
    { t.vol.ino rootino with size := ((t.vol.ino rootino).size / bsize + 1) * bsize }
  bitmap : ∀ b < bpb, getBit (s.blk (bblock b sb)) (b % bpb) = decide (b < s.freeblock)
  super : s.blk 1 = superblock

theorem main_finished {files : List HostFile} {s : Image} (h : main files = some s)
    (hn : 2 + files.length ≤ ninodes) : ∃ t, Finished s t (2 + files.length) := by
  have hf := main_freeinode h
  obtain ⟨s₀, s₁, s₂, h₀, h₁, h₂, h₃⟩ := main_steps h
  obtain ⟨l₀, hf₀⟩ := root_listed h₀
  have l₁ := l₀.addFiles (by rw [hf₀]; exact hn) h₁
  obtain ⟨hr, -, hvol⟩ := l₁.fixRoot h₂
  obtain ⟨hvol', -, hfb, hsuper, hbit⟩ := Image.balloc_spec h₃
  refine ⟨s₁, l₁, ?_, hf, hvol'.trans hvol, fun b hb => ?_, hsuper.trans hr.super⟩
  · rw [Image.addFiles_freeinode h₁, hf₀]
  · rw [hfb]
    exact hbit b hb

namespace Finished

variable {s t : Image} {m i : ℕ}

theorem root_size (f : Finished s t m) : (t.vol.ino rootino).size = direntSize * m := by
  rw [← f.listed.size, node_of_ne f.listed.type_ne]

theorem ref (f : Finished s t m) (i : ℕ) (x : Slot) : s.vol.ref i x = t.vol.ref i x := by
  rw [f.vol]
  exact ref_setIno_of_addrs rfl

theorem ino_of_ne (f : Finished s t m) (h : i ≠ rootino) : s.vol.ino i = t.vol.ino i := by
  rw [f.vol, setIno_ino_of_ne h]

theorem ino_root (f : Finished s t m) : s.vol.ino rootino =
    { t.vol.ino rootino with size := (direntSize * m / bsize + 1) * bsize } := by
  rw [f.vol, setIno_ino_self, f.root_size]

theorem type (f : Finished s t m) (i : ℕ) : (s.vol.ino i).type = (t.vol.ino i).type := by
  by_cases hi : i = rootino
  · rw [hi, f.ino_root]
  · rw [f.ino_of_ne hi]

theorem typed (f : Finished s t m) : (s.vol.ino i).type ≠ 0 ↔ 1 ≤ i ∧ i < s.freeinode := by
  rw [f.type, f.listed.sound.typed, f.count, f.freeinode]

/-- The root directory has a block for each index below its new size unless its last block is
full. -/
theorem root_blocks (f : Finished s t m) (hm : m ≤ ninodes) :
    (∀ k, k * bsize < (s.vol.ino rootino).size → s.vol.ref rootino (.ofIndex k) ≠ 0) ↔
      m % 64 ≠ 0 := by
  have hpk := f.listed.sound.packed rootino f.listed.type_ne
  rw [f.root_size] at hpk
  simp only [f.ino_root, f.ref]
  constructor
  · intro h hm64
    have hlast := h (direntSize * m / bsize) (by simp only [bsize]; omega)
    rw [hpk.exact _ (by simp only [direntSize, bsize, maxfile, ninodes] at *; omega)] at hlast
    simp only [direntSize, bsize] at hlast
    omega
  · intro hm64 k hk
    refine (hpk.exact k ?_).2 ?_
    · simp only [direntSize, bsize, maxfile, ninodes] at *
      omega
    · simp only [direntSize, bsize] at *
      omega

/-- The entries of the root directory; those past the old size are zero. -/
theorem entries (f : Finished s t m) (hm : m ≤ ninodes) (hm64 : m % 64 ≠ 0) {e : ℕ}
    (he : direntSize * e < (s.vol.ino rootino).size)
    (h0 : ((s.vol.node rootino).ent e).inum ≠ 0) :
    (s.vol.ino ((s.vol.node rootino).ent e).inum).type ≠ 0 := by
  have htype : (s.vol.ino rootino).type ≠ 0 := by
    rw [f.type]
    exact f.listed.type_ne
  have hbyte : ∀ o, s.vol.byte rootino o = t.vol.byte rootino o := fun o => by
    rw [f.vol]
    exact byte_setIno_of_addrs rfl
  have hsz := f.root_size
  rw [f.ino_root] at he
  simp only [bsize, direntSize] at he hsz
  by_cases hem : e < m
  · have hent : (s.vol.node rootino).ent e = (t.vol.node rootino).ent e := by
      refine Dirent.decode_congr fun j hj => ?_
      rw [node_of_ne htype, node_of_ne f.listed.type_ne, f.ino_root]
      simp only [direntSize, bsize, hbyte, hsz] at *
      rw [if_pos (by omega), if_pos (by omega)]
    rw [hent, f.typed, f.freeinode, ← f.count]
    exact f.listed.ents e hem
  · refine absurd ?_ h0
    have hpk := f.listed.sound.packed rootino f.listed.type_ne
    rw [f.root_size] at hpk
    have hzero : ∀ j < direntSize, (s.vol.node rootino).data (direntSize * e + j) = 0 := fun j hj => by
      rw [node_of_ne htype, f.ino_root]
      simp only [direntSize, bsize, ninodes, hbyte] at *
      have hk : (16 * e + j) / bsize < maxfile := by
        simp only [bsize, maxfile]
        omega
      rw [if_pos (by omega)]
      refine hpk.tail _ (by omega) hk ((hpk.exact _ hk).2 ?_)
      simp only [bsize]
      omega
    have h₀ := hzero 0 (by decide)
    have h₁ := hzero 1 (by decide)
    simp only [Node.ent, Dirent.decode, h₀, h₁]
    rfl

/-- With inodes for all files, only the root directory can be wrong. -/
theorem wellFormed_iff (f : Finished s t m) (hm : m ≤ ninodes) : WellFormed s ↔ m % 64 ≠ 0 := by
  have hok := f.listed.sound.ok
  constructor
  · intro w
    exact (f.root_blocks hm).1 (w.blocks rootino (Nat.le_refl 1)
      (by rw [f.freeinode, ← f.count]; exact f.listed.root_lt))
  · intro hm64
    have ht : ∀ {i}, 1 ≤ i → i < s.freeinode → (t.vol.ino i).type ≠ 0 := fun {i} h₁ h₂ => by
      rw [← f.type]
      exact f.typed.2 ⟨h₁, h₂⟩
    refine ⟨fun i h₁ h₂ => ?_, fun i x h₁ h₂ hx => ?_, fun i x j y h₁ h₂ h₃ h₄ hx hy => ?_, f.bitmap,
      fun i h₁ h₂ k hk => ?_, fun i h₁ h₂ hd e he h0 => ?_⟩
    · have hi : i < sb.ninodes := h₂.trans_le (by rw [f.freeinode]; exact hm)
      exact ⟨hi, Nat.le_add_left _ _, layout_sb.iblock_lt hi⟩
    · rw [f.ref] at hx ⊢
      exact (hok.owned.used_ref (ht h₁ h₂) hx).1
    · rw [f.ref] at hx
      rw [f.ref, f.ref] at hy
      exact hok.owned.ref_inj (ht h₁ h₂) (ht h₃ h₄) hx hy
    · by_cases hi : i = rootino
      · subst hi
        exact (f.root_blocks hm).2 hm64 k hk
      · rw [f.ino_of_ne hi] at hk
        rw [f.ref]
        exact (hok.filled i (ht h₁ h₂)).block k hk
    · rw [f.type, ← node_type] at hd
      obtain rfl := (f.listed.dir i).1 hd
      exact f.entries hm hm64 he h0

end Finished

/-! ## Small images are built -/

namespace Image

variable {s s' s₁ : Image} {m n k off x : ℕ} {din din' : Dinode} {p : ℕ → UInt8}

/-- One turn is enough inside a block. -/
theorem appendLoop_turn (hn : n ≠ 0) (hbn : off / bsize < maxfile) (hfit : off % bsize + n ≤ bsize)
    (hb : s.blockAt din (off / bsize) = some (x, din', s₁)) (hx : x < s₁.size) :
    ∃ y, appendLoop (k + 1) n p din off s = some (din', off + n, s₁.wsect x y) := by
  have hmin : min n ((off / bsize + 1) * bsize - off) = n := by
    simp only [bsize] at *
    omega
  have hrest : ∀ q d o t, appendLoop k 0 q d o t = some (d, o, t) := fun q d o t => by
    cases k <;> simp [appendLoop]
  have hr : s₁.rsect x = some (s₁.blk x) := if_pos hx
  rw [appendLoop, if_neg hn, if_pos hbn, hb]
  simp only [Option.bind_eq_bind, Option.bind_some, hr, hmin, Nat.sub_self, hrest]
  exact ⟨_, rfl⟩

/-- There is room for another entry in a root directory with direct blocks only. -/
theorem Listed.exists_addEntry (h : s.Listed m) (hm : m < 768) (hfb : s.freeblock < fssize)
    (inum : ℕ) (name : Name) :
    ∃ s', s.addEntry inum name = some s' ∧ s'.freeblock ≤ s.freeblock + 1 := by
  have hr := h.sound.ready
  have hsize : (s.vol.ino rootino).size = direntSize * m := by
    rw [← h.size, node_of_ne h.type_ne]
  have hd : direntSize * m / bsize < ndirect := by
    simp only [direntSize, bsize, ndirect]
    omega
  obtain ⟨x, din', s₁, hb, hx, hs, hf⟩ : ∃ x din' s₁, s.blockAt (s.vol.ino rootino)
      (direntSize * m / bsize) = some (x, din', s₁) ∧ x < fssize ∧ s₁.size = fssize ∧
      s₁.freeblock ≤ s.freeblock + 1 := by
    unfold blockAt
    rw [dif_pos hd]
    by_cases h0 : (s.vol.ino rootino).addrs ⟨_, lt_addrs hd⟩ = 0
    · exact ⟨_, _, _, if_pos h0, hfb, hr.size, Nat.le_refl _⟩
    · have hused := h.sound.ok.owned.used_ref (x := .addr ⟨_, lt_addrs hd⟩) h.type_ne h0
      exact ⟨_, _, _, if_neg h0, hused.1.2, hr.size, Nat.le_succ _⟩
  have hn : direntSize ≠ 0 := by decide
  obtain ⟨y, hl⟩ := appendLoop_turn (k := 15) (p := Dirent.encode ⟨inum % 2 ^ 16, name⟩) hn
    (by simp only [direntSize, bsize, maxfile]; omega)
    (by simp only [direntSize, bsize]; omega) hb (by rw [hs]; exact hx)
  have hi : iblock rootino sb < (s₁.wsect x y).size :=
    lt_of_lt_of_le (by rw [hs]; decide) (Nat.le_max_left _ _)
  obtain ⟨s', hw, hfb'⟩ := exists_winode hi (d := { din' with size := direntSize * m + direntSize })
  have hfb'' : s'.freeblock = s₁.freeblock := hfb'
  refine ⟨s', ?_, by omega⟩
  rw [Image.addEntry, Image.iappend, hr.rinode (by decide)]
  simp only [Option.bind_eq_bind, Option.bind_some, hsize]
  rw [show appendLoop direntSize = appendLoop (15 + 1) from rfl, hl]
  exact hw

theorem Sound.exists_ialloc (h : Sound s) (ty : ℕ) (hlt : s.freeinode < ninodes) :
    ∃ s', s.ialloc ty = some s' ∧ s'.freeblock = s.freeblock := by
  have hi : iblock s.freeinode sb < s.size := by
    rw [h.ready.size]
    exact (iblock_lt hlt).trans (by decide)
  exact exists_winode (s := { s with freeinode := s.freeinode + 1 }) hi

end Image

/-- An empty file of the host. -/
def emptyFile (name : List UInt8) : HostFile := ⟨name, true, []⟩

/-- A name that `mkfs` accepts. -/
def Accepted (name : List UInt8) : Prop :=
  47 ∉ Image.stripUser name ∧ (Image.shortname name).length ≤ dirsiz

instance (name : List UInt8) : Decidable (Accepted name) := inferInstanceAs (Decidable (_ ∧ _))

namespace Image

variable {s : Image} {m : ℕ} {names : List (List UInt8)}

theorem Listed.exists_addFiles (h : s.Listed m) (hn : ∀ n ∈ names, Accepted n)
    (hi : s.freeinode + names.length ≤ ninodes) (hm : m + names.length ≤ 768)
    (hb : s.freeblock + names.length ≤ fssize) :
    ∃ s', s.addFiles (names.map emptyFile) = some s' ∧
      s'.freeblock ≤ s.freeblock + names.length := by
  induction names generalizing s m with
  | nil => exact ⟨s, rfl, Nat.le_refl _⟩
  | cons n names ih =>
    rw [List.length_cons] at hi hm hb ⊢
    obtain ⟨hslash, hlen⟩ := hn n List.mem_cons_self
    obtain ⟨s₁, h₁, hf₁⟩ := h.sound.exists_ialloc tFile (by omega)
    obtain ⟨s₂, h₂, hf₂⟩ := (h.ialloc (by omega) h₁).exists_addEntry (by omega) (by omega)
      s.freeinode (nameOf (shortname n))
    have ha : s.addFile (emptyFile n) = some s₂ := by
      have hopens : ¬ (emptyFile n).opens = false := by simp [emptyFile]
      have hlen' : ¬ dirsiz < (shortname (emptyFile n).path).length := not_lt.2 hlen
      have hslash' : 47 ∉ stripUser (emptyFile n).path := hslash
      rw [Image.addFile, if_neg hslash', if_neg hopens, if_neg hlen', h₁]
      exact Option.bind_eq_some_iff.2 ⟨s₁, rfl, Option.bind_eq_some_iff.2 ⟨s₂, h₂, rfl⟩⟩
    have hfi : s₂.freeinode = s.freeinode + 1 := by
      rw [iappend_freeinode h₂, ialloc_freeinode h₁]
    obtain ⟨s', h', hf'⟩ := ih (h.addFile (by omega) ha)
      (fun n' hn' => hn n' (List.mem_cons_of_mem _ hn')) (by omega) (by omega) (by omega)
    refine ⟨s', ?_, by omega⟩
    rw [List.map_cons, Image.addFiles, ha]
    exact h'

end Image

theorem exists_root : ∃ s, root = some s ∧ s.freeblock ≤ nmeta + 2 := by
  obtain ⟨s₁, h₁, hf₁⟩ := sound_blank.exists_ialloc tDir (by decide)
  have l₁ := listed_ialloc_blank h₁
  have hb : blank.freeblock = nmeta := rfl
  have hi : s₁.freeinode = 2 := Image.ialloc_freeinode h₁
  have hlt : nmeta + 2 < fssize := by decide
  obtain ⟨s₂, h₂, hf₂⟩ := l₁.exists_addEntry (by decide) (by omega) rootino (nameOf [46])
  have l₂ := l₁.addEntry (Nat.le_refl 1) (by omega) h₂
  obtain ⟨s₃, h₃, hf₃⟩ := l₂.exists_addEntry (by decide) (by omega) rootino (nameOf [46, 46])
  refine ⟨s₃, ?_, by omega⟩
  rw [root, h₁]
  simp only [Option.bind_eq_bind, Option.bind_some, h₂]
  exact h₃

/-- `mkfs` builds an image with any empty files, as long as there are inodes for them. -/
theorem exists_main (names : List (List UInt8)) (hn : ∀ n ∈ names, Accepted n)
    (hlen : names.length ≤ 198) : ∃ s, main (names.map emptyFile) = some s := by
  obtain ⟨s₀, h₀, hf₀⟩ := exists_root
  obtain ⟨l₀, hi₀⟩ := root_listed h₀
  have hmeta : nmeta = 47 := rfl
  obtain ⟨s₁, h₁, hf₁⟩ := l₀.exists_addFiles hn (by simp only [ninodes]; omega) (by omega)
    (by simp only [fssize]; omega)
  have l₁ := l₀.addFiles (by simp only [List.length_map, ninodes]; omega) h₁
  obtain ⟨s₂, h₂, hf₂⟩ := Image.exists_winode (s := s₁) (i := rootino)
    (by rw [l₁.sound.ready.size]; decide)
    (d := { s₁.vol.ino rootino with size := ((s₁.vol.ino rootino).size / bsize + 1) * bsize })
  have h₂' : s₁.fixRoot = some s₂ := by
    rw [Image.fixRoot, l₁.sound.ready.rinode (by decide)]
    exact h₂
  have hused : s₂.freeblock < bpb := by
    simp only [bpb]
    omega
  refine ⟨s₂.wsect sb.bmapstart ((List.range s₂.freeblock).foldl setBit (.zero _)), ?_⟩
  rw [main, h₀]
  simp only [Option.bind_eq_bind, Option.bind_some, h₁, h₂', Image.balloc, if_pos hused]

/-- The image is well-formed exactly for at most 198 files, when the entries of the root directory
do not fill its last block. -/
theorem mkfs_wellFormed_iff {files : List HostFile} {s : Image} (h : main files = some s) :
    WellFormed s ↔ files.length ≤ 198 ∧ (files.length + 2) % 64 ≠ 0 := by
  by_cases hn : files.length ≤ 198
  · have hn' : 2 + files.length ≤ ninodes := by simp only [ninodes]; omega
    obtain ⟨t, f⟩ := main_finished h hn'
    rw [f.wellFormed_iff hn', Nat.add_comm]
    exact ⟨fun hm => ⟨hn, hm⟩, fun hm => hm.2⟩
  · refine ⟨fun w => ?_, fun hm => absurd hm.1 hn⟩
    have hf := main_freeinode h
    have := (w.inodes ninodes (by decide) (by simp only [ninodes]; omega)).1
    exact absurd this (Nat.lt_irrefl _)

theorem mkfs_wellFormed_two : ∃ s, main ([[97], [98]].map emptyFile) = some s ∧ WellFormed s := by
  obtain ⟨s, h⟩ := exists_main [[97], [98]] (by decide) (by decide)
  exact ⟨s, h, (mkfs_wellFormed_iff h).2 (by decide)⟩

/-- The names of 62 files. -/
def names62 : List (List UInt8) := (List.range 62).map fun i => [97, UInt8.ofNat (48 + i)]

/-- With 62 files the entries fill a block, and the root directory ends in a hole. -/
theorem mkfs_root_hole : ∃ s, (names62.map Image.shortname).Nodup ∧
    main (names62.map emptyFile) = some s ∧ (s.vol.ino rootino).size = 2 * bsize ∧
    s.vol.ref rootino (.ofIndex 1) = 0 ∧ ¬ WellFormed s := by
  obtain ⟨s, h⟩ := exists_main names62 (by decide) (by decide)
  obtain ⟨t, f⟩ := main_finished h (by decide)
  have hpk := f.listed.sound.packed rootino f.listed.type_ne
  rw [f.root_size] at hpk
  refine ⟨s, by decide, h, by rw [f.ino_root]; rfl, ?_, fun w => ?_⟩
  · rw [f.ref]
    by_contra hne
    exact absurd ((hpk.exact 1 (by decide)).1 hne) (by decide)
  · exact absurd ((f.wellFormed_iff (by decide)).1 w) (by decide)

end Mkfs

end Xv6
