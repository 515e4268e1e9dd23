import Xv6.Sys.Exec
import Xv6.Vm.Image
import Xv6.Fs.Reach

/-!
# Loading an executable

What `kexec` makes of a file while it has the inode. The loop of `loadseg` stores the bytes that it
reads one behind the other (`loadseg_wp`), the loop over the headers adds a segment for each
(`loadSegments_wp`), and at every point the image is one that `proc_freepagetable` can give back. When
all is read, the image is the one that the headers describe, `imageOf`.

What a read returns is a matter of the file system: it is the contents of the file when these are
settled, and some bytes in any case (`Reads`).
-/

namespace Xv6.Vm

open Conc Eff

/-! ## The image of a file -/

/-- A program header. -/
structure Seg where
  off : ℕ
  vaddr : ℕ
  filesz : ℕ
  memsz : ℕ
  flags : ℕ
  deriving DecidableEq

/-- The fields of a program header. -/
def Seg.ofHeader (l : List UInt8) : Seg :=
  ⟨Fs.field l 4 4, Fs.field l 8 4, Fs.field l 16 4, Fs.field l 20 4, Fs.field l 24 4⟩

/-- Header `j` of a file, when it is one to load. -/
def segAt (nd : Node) (phoff j : ℕ) : Option Seg :=
  let l := nd.read ((phoff + Fs.proghdrSize * j) % 2 ^ 32) Fs.proghdrSize
  if Fs.field l 0 4 = Fs.elfProgLoad then some (.ofHeader l) else none

/-- The segments of a file. -/
def elfSegs (nd : Node) : List Seg :=
  let l := nd.read 0 Fs.elfhdrSize
  (List.range' 0 (Fs.field l 44 2)).filterMap (segAt nd (Fs.field l 28 4))

/-- The entry of a file. -/
def elfEntry (nd : Node) : ℕ := Fs.field (nd.read 0 Fs.elfhdrSize) 24 4

/-- The `n` bytes of a file from `off` on. -/
def fileBytes (nd : Node) (off n : ℕ) : List UInt8 := (List.range' off n).map nd.data

/-- The image with a segment added. -/
def Img.addSeg (nd : Node) (g : Img) (p : Seg) : Img :=
  (if p.vaddr + p.memsz < g.sz then g
    else g.grow (p.vaddr + p.memsz) (pteR ||| pteU ||| flags2perm p.flags)).load p.vaddr
      (fileBytes nd p.off p.filesz)

/-- A segment that `kexec` does not refuse. -/
structure Seg.Ok (p : Seg) : Prop where
  file : p.filesz ≤ p.memsz
  fits : p.vaddr + p.memsz < 2 ^ 32

/-- The bytes of a segment are bytes of the file. -/
def Seg.Within (nd : Node) (p : Seg) : Prop := 0 < p.filesz → p.off + p.filesz ≤ nd.size

/-- All pages are the user's. -/
def Img.Open (g : Img) : Prop := ∀ v < pgs g.sz, (g.perm v).testBit uBit = true

/-- What the kernel reads from a locked inode: some bytes, and those of `nd` when `C` is the case. -/
def Reads (t : Tid) (err : String → Prop) (ip : InodeId) (fs : FsSt) (C : Prop) (nd : Node) : Prop :=
  ∀ (off n : ℕ) (Q : ℤ × List UInt8 → FsSt → Prop),
    (∀ l : List UInt8, l.length ≤ n → (off < 2 ^ 32 → n < 2 ^ 32 → C → l = nd.read off n) →
      Q (l.length, l) fs) → wp (store t) err (Fs.readi ip .kernel off n) Q fs

/-- The world with other memory. -/
def World.withPhys (w : World) (ph : Phys) : World := { w with mach := { w.mach with phys := ph } }

variable {K : Layout} {t : Tid} {err : String → Prop} {w : World} {s₀ : Phys} {R : Multiset ℕ}
  {g : Img} {ip : InodeId} {C : Prop} {nd : Node} {root tf : ℕ}

theorem wp_onPhys {α : Type} {p : PhysM α} {Q : α → World → Prop}
    (h : Det.Ends (fun e => err (haltMessage e)) p w.mach.phys fun a ph => Q a (w.withPhys ph)) :
    wp (world t) err (onMach (onPhys p)) Q w := wp_onMach (onPhys_ends h)

theorem field_lt (l : List UInt8) (off k : ℕ) : Fs.field l off k < 256 ^ k := Bytes.rd_lt _ _ _

theorem flags2perm_cases (f : ℕ) :
    flags2perm f = 0 ∨ flags2perm f = pteX ∨ flags2perm f = pteW ∨ flags2perm f = pteX ||| pteW := by
  unfold flags2perm
  cases f.testBit 0 <;> cases f.testBit 1 <;> decide

/-- The flags that `uvmalloc` gives to the pages of a segment. -/
theorem segPerm_ok (f : ℕ) : pteR ||| pteU ||| flags2perm f < pgsize ∧
    (pteR ||| pteU ||| flags2perm f ||| pteV).testBit rBit = true ∧
    (pteR ||| pteU ||| flags2perm f).testBit uBit = true := by
  obtain h | h | h | h := flags2perm_cases f <;> rw [h] <;> decide

theorem Img.Open.grow (h : g.Open) {newsz perm : ℕ} (hp : perm.testBit uBit = true) :
    (g.grow newsz perm).Open := by
  intro v hv
  show (if v < pgs g.sz then g.perm v else perm).testBit uBit = true
  split
  · next hlt => exact h v hlt
  · exact hp

/-! ## `loadseg` -/

/-- A read that is not short. -/
theorem read_full {off n : ℕ} {l : List UInt8} (h : l = nd.read off n) (hl : l.length = n)
    (hn : 0 < n) : l = fileBytes nd off n ∧ off + n < 2 ^ 32 ∧ off + n ≤ nd.size := by
  unfold Node.read at h
  split at h
  · subst h
    rw [List.length_nil] at hl
    omega
  · next hc =>
    rw [h, List.length_map, List.length_range'] at hl
    rw [hl] at h
    exact ⟨h, by omega, by omega⟩

theorem fileBytes_append (nd : Node) (off m n : ℕ) :
    fileBytes nd off m ++ fileBytes nd (off + m) n = fileBytes nd off (m + n) := by
  have h : List.range' off m ++ List.range' (off + 1 * m) n = List.range' off (m + n) :=
    List.range'_append
  rw [one_mul] at h
  unfold fileBytes
  rw [← h, List.map_append]

theorem length_fileBytes (nd : Node) (off n : ℕ) : (fileBytes nd off n).length = n := by
  unfold fileBytes
  rw [List.length_map, List.length_range']

/-- `loadseg` with the bytes `l` loaded. -/
theorem loadseg_wp {Q : Bool → World → Prop} {va off sz k : ℕ} {l : List UInt8}
    (hread : Reads t err ip w.fs C nd) (hg₀ : Good K s₀ ({tf} + R))
    (hb : Building K root tf (g.load va l) s₀ w.mach.phys) (hu : g.Open)
    (hsz : va + sz ≤ pgsize * pgs g.sz) (hle : l.length ≤ sz)
    (hl : C → off + l.length < 2 ^ 32 ∧ l = fileBytes nd off l.length ∧
      (0 < l.length → off + l.length ≤ nd.size))
    (hk : 0 < k ∧ (l.length < sz → (va + sz) / pgsize + 1 < k + (va + l.length) / pgsize))
    (hQ : ∀ r l' ph, Building K root tf (g.load va l') s₀ ph →
      (r = true → C → l' = fileBytes nd off sz ∧ (0 < sz → off + sz ≤ nd.size)) →
      Q r (w.withPhys ph)) :
    wp (world t) err (loadseg root va ip off sz k l.length) Q w := by
  induction k generalizing w l with
  | zero => omega
  | succ k ih =>
    unfold loadseg
    by_cases hlt : l.length < sz
    · have hpg := hb.space.pgs_le_num
      have hpgs : pgs (g.load va l).sz = pgs g.sz := rfl
      have hmod : (va + l.length) % 2 ^ 32 = va + l.length := by
        simp only [pgsize] at *
        omega
      have hv : (va + l.length) / pgsize < pgs g.sz := by
        simp only [pgsize] at *
        omega
      obtain ⟨p, hp, he⟩ := hb.page _ hv
      have hpage := hb.userPage hv (hu _ hv)
      have hpa : pte2pa (pte w.mach.phys.mem root ((va + l.length) / pgsize)) = p := by
        rw [he, pte2pa_entry hp.aligned (hb.perm _ hv)]
      have hp0 : p ≠ 0 := by
        have h₁ := hp.low
        have h₂ := K.kend_ge
        omega
      have hwalk : walkaddr root (va + l.length) w.mach.phys = .ok (p, w.mach.phys) := by
        rw [walkaddr_eq, if_pos ⟨by simp only [maxva, pgsize] at *; omega, hpage.valid, hpage.user⟩, hpa]
      rw [if_pos hlt, hmod]
      refine wp_bind (wp_onPhys (.of_eq hwalk ?_))
      rw [if_neg hp0]
      -- the part of the segment in this page
      obtain ⟨n, hn⟩ : ∃ n, n = min (pgsize - (va + l.length) % pgsize) (sz - l.length) := ⟨_, rfl⟩
      simp only [← hn]
      have hn0 : 0 < n ∧ n ≤ sz - l.length ∧ (va + l.length) % pgsize + n ≤ pgsize ∧
          (n = sz - l.length ∨ (va + l.length) % pgsize + n = pgsize) := by
        simp only [pgsize] at *
        omega
      refine wp_bind (wp_onFs (hread _ _ _ fun l₁ hlen hl₁ => ?_))
      have hbuild := hb.poke hg₀ ((va + l.length) % pgsize) hv (hu _ hv)
        (show (va + l.length) % pgsize + l₁.length ≤ pgsize by omega)
      have hadd : pgsize * ((va + l.length) / pgsize) + (va + l.length) % pgsize = va + l.length :=
        Nat.div_add_mod _ _
      rw [hadd, Img.load_load, hpa] at hbuild
      refine wp_bind (wp_onPhys (.of_eq rfl ?_))
      by_cases hshort : (l₁.length : ℤ) ≠ n
      · rw [if_pos hshort]
        exact wp_pure (hQ false _ _ hbuild fun h => absurd h Bool.false_ne_true)
      · have hfull : l₁.length = n := by omega
        have happ : (l ++ l₁).length = l.length + n := by rw [List.length_append, hfull]
        rw [if_neg hshort, ← happ]
        have hturn := hk.2 hlt
        have hmono : (va + l.length) / pgsize ≤ (va + sz) / pgsize := Nat.div_le_div_right (by omega)
        refine ih hread hbuild (by rw [happ]; omega) (fun hC => ?_) ⟨by omega, fun h => ?_⟩ hQ
        · obtain ⟨h₁, h₂, -⟩ := hl hC
          have hoff : (off + l.length) % 2 ^ 32 = off + l.length := Nat.mod_eq_of_lt h₁
          rw [hoff] at hl₁
          obtain ⟨h₃, h₄, h₅⟩ := read_full (hl₁ h₁ (by have := hn0.2.2.1; simp only [pgsize] at this; omega) hC)
            hfull hn0.1
          rw [happ]
          refine ⟨by omega, ?_, fun _ => by omega⟩
          rw [← fileBytes_append, ← h₂, ← h₃]
        · rw [happ] at h ⊢
          simp only [pgsize] at *
          omega
    · have hend : l.length = sz := by omega
      rw [if_neg hlt]
      exact wp_pure (hQ true l _ hb fun _ hC => hend ▸ (hl hC).2)

/-! ## The program headers -/

/-- The loop over program headers. -/
theorem loadSegments_wp {Q : Bool × ℕ → World → Prop} {phoff : ℕ} {js : List ℕ}
    (hread : Reads t err ip w.fs C nd) (hg₀ : Good K s₀ ({tf} + R))
    (hb : Building K root tf g s₀ w.mach.phys) (hu : g.Open)
    (hQ : ∀ r g' ph, Building K root tf g' s₀ ph → r.2 = g'.sz →
      (r.1 = true → g'.Open ∧ (C → g' = (js.filterMap (segAt nd phoff)).foldl (Img.addSeg nd) g ∧
        ∀ p ∈ js.filterMap (segAt nd phoff), p.Ok ∧ p.Within nd)) → Q r (w.withPhys ph)) :
    wp (world t) err (loadSegments K root ip phoff js g.sz) Q w := by
  induction js generalizing w g with
  | nil => exact wp_pure (hQ _ g _ hb rfl fun _ => ⟨hu, fun _ => ⟨rfl,
      fun _ hp => absurd hp List.not_mem_nil⟩⟩)
  | cons j js ih =>
    unfold loadSegments
    refine wp_bind (wp_onFs (hread _ _ _ fun l hlen hl => ?_))
    -- `goto bad` before anything has changed
    have hbad : ∀ ph, Building K root tf g s₀ ph → Q (false, g.sz) (w.withPhys ph) := fun ph hph =>
      hQ _ g ph hph rfl fun h => absurd h Bool.false_ne_true
    split
    · exact wp_pure (hbad _ hb)
    next hfull =>
    have hC : C → segAt nd phoff j =
        if Fs.field l 0 4 = Fs.elfProgLoad then some (.ofHeader l) else none := fun hC => by
      unfold segAt
      rw [← hl (Nat.mod_lt _ (by decide)) (by decide) hC]
    simp only
    split
    · next hty =>
      refine ih hread hb hu fun r g' ph hph hr h => hQ r g' ph hph hr fun hok => ?_
      refine ⟨(h hok).1, fun hc => ?_⟩
      rw [List.filterMap_cons, hC hc, if_neg hty]
      exact (h hok).2 hc
    next hty =>
    rw [not_not] at hty
    split
    · exact wp_pure (hbad _ hb)
    next hfile =>
    split
    · exact wp_pure (hbad _ hb)
    next hwrap =>
    obtain ⟨p, hp⟩ : ∃ p, p = Seg.ofHeader l := ⟨_, rfl⟩
    have hoff := field_lt l 4 4
    have hva := field_lt l 8 4
    have hmem := field_lt l 20 4
    have hok : p.Ok := by
      subst hp
      exact ⟨show Fs.field l 16 4 ≤ Fs.field l 20 4 by omega,
        show Fs.field l 8 4 + Fs.field l 20 4 < 2 ^ 32 by omega⟩
    have hend : (Fs.field l 8 4 + Fs.field l 20 4) % 2 ^ 32 = p.vaddr + p.memsz := by
      have := hok.fits
      subst hp
      exact Nat.mod_eq_of_lt this
    rw [hend, show Fs.field l 24 4 = p.flags by rw [hp]; rfl, show Fs.field l 8 4 = p.vaddr by rw [hp]; rfl,
      show Fs.field l 4 4 = p.off by rw [hp]; rfl, show Fs.field l 16 4 = p.filesz by rw [hp]; rfl]
    obtain ⟨hperm, hr, huser⟩ := segPerm_ok p.flags
    -- the segment is loaded into `g₁`, which has room for it
    have hload : ∀ (g₁ : Img) (ph : Phys), Building K root tf g₁ s₀ ph → g₁.Open →
        p.vaddr + p.memsz ≤ g₁.sz → (if p.vaddr + p.memsz < g.sz then g
          else g.grow (p.vaddr + p.memsz) (pteR ||| pteU ||| flags2perm p.flags)) = g₁ →
        wp (world t) err (do
          if ← loadseg root p.vaddr ip p.off p.filesz turns 0 then
            loadSegments K root ip phoff js g₁.sz
          else return (false, g₁.sz)) Q (w.withPhys ph) := by
      intro g₁ ph hph hopen hroom hg₁
      have hb₁ : Building K root tf (g₁.load p.vaddr []) s₀ ph := by
        rw [Img.load_nil]
        exact hph
      have hle := hok.file
      have hcover : g₁.sz ≤ pgsize * pgs g₁.sz := by
        simp only [pgs, pgsize]
        omega
      have hfits := hok.fits
      refine wp_bind (loadseg_wp (w := w.withPhys ph) hread hg₀ hb₁ hopen (by omega) (Nat.zero_le _)
        (fun _ => ⟨by rw [List.length_nil, Nat.add_zero, hp]; exact hoff, rfl,
          fun h => absurd h (Nat.lt_irrefl 0)⟩)
        ⟨by decide, fun _ => ?_⟩
        fun r l' ph' hph' hl' => ?_)
      · simp only [turns, pgsize, List.length_nil]
        omega
      cases r with
      | false =>
        rw [if_neg (by decide)]
        exact wp_pure (hQ _ (g₁.load p.vaddr l') ph' hph' rfl fun h => absurd h Bool.false_ne_true)
      | true =>
        rw [if_pos rfl]
        refine ih (w := w.withPhys ph') (g := g₁.load p.vaddr l') hread hph' hopen
          fun r g' ph'' hph'' hr' h => hQ r g' ph'' hph'' hr' fun hok' => ?_
        refine ⟨(h hok').1, fun hc => ?_⟩
        obtain ⟨h₁, h₂⟩ := (h hok').2 hc
        rw [List.filterMap_cons, hC hc, if_pos hty, ← hp]
        obtain ⟨h₃, h₄⟩ := hl' rfl hc
        refine ⟨?_, List.forall_mem_cons.2 ⟨⟨hok, h₄⟩, h₂⟩⟩
        rw [h₁, h₃, List.foldl_cons, Img.addSeg, hg₁]
    refine wp_bind (wp_onPhys (hb.uvmalloc hg₀ hok.fits hperm hr (fun hless => ?_) (fun ph hle hph => ?_)
      fun ph hph => ?_))
    · rw [if_neg (by omega)]
      exact hload g _ hb hu (by omega) (if_pos hless)
    · by_cases h0 : p.vaddr + p.memsz = 0
      · rw [if_pos h0]
        exact wp_pure (hQ _ _ ph hph (by simp only [Img.grow]; omega) fun h => absurd h Bool.false_ne_true)
      · rw [if_neg h0]
        exact hload _ ph hph (hu.grow huser) (Nat.le_refl _) (if_neg (by omega))
    · rw [if_pos rfl]
      exact wp_pure (hbad ph hph)

/-- `kexec` with the inode locked. -/
theorem loadElf_wp {Q : Loaded → World → Prop} (hread : Reads t err ip w.fs C nd)
    (hg : Good K w.mach.phys ({tf} + R)) (htf : K.Frame tf)
    (hnone : ∀ ph, w.mach.phys.Moves ph 0 0 → Q ⟨false, none, 0, 0⟩ (w.withPhys ph))
    (hsome : ∀ ok root g entry ph, Building K root tf g w.mach.phys ph → entry < 2 ^ 32 →
      (ok = true → g.Open ∧ (C → g = (elfSegs nd).foldl (Img.addSeg nd) .empty ∧
        entry = elfEntry nd ∧ ∀ p ∈ elfSegs nd, p.Ok ∧ p.Within nd)) → Q ⟨ok, some root, g.sz, entry⟩ (w.withPhys ph)) :
    wp (world t) err (loadElf K tf ip) Q w := by
  have hlt : tf < 2 ^ 32 := by
    have := htf.high
    simp only [phystop] at this
    omega
  unfold loadElf
  refine wp_bind (wp_onFs (hread _ _ _ fun l _ hl => ?_))
  split
  · exact wp_pure (hnone _ .refl)
  split
  · exact wp_pure (hnone _ .refl)
  refine wp_bind (wp_onPhys (procPagetable_ends hg htf.aligned hlt (fun ph _ hm => wp_pure (hnone ph hm))
    fun root ph hsp hm => ?_))
  have hb : Building K root tf .empty w.mach.phys ph := by
    refine ⟨⟨hsp, ?_, ?_, ?_⟩, ?_⟩
    · exact fun v hv => absurd hv (Nat.not_lt_zero v)
    · exact fun v hv => absurd hv (Nat.not_lt_zero v)
    · exact fun a ha => absurd ha (Nat.not_lt_zero _)
    · show w.mach.phys.Moves ph 0 (tables ph.mem root + users ph.mem root 0 0)
      rw [users_self, add_zero]
      exact hm
  refine wp_bind (loadSegments_wp (w := w.withPhys ph) (g := .empty) hread hg hb
    (fun v hv => absurd hv (Nat.not_lt_zero v)) fun r g ph' hph' hr h => wp_pure ?_)
  rw [hr]
  refine hsome r.1 root g _ ph' hph' (field_lt _ _ _) fun hok => ⟨(h hok).1, fun hc => ?_⟩
  obtain ⟨h₁, h₂⟩ := (h hok).2 hc
  have hl' := hl (by decide) (by decide) hc
  rw [hl'] at h₁ h₂ ⊢
  exact ⟨h₁, rfl, h₂⟩

end Xv6.Vm
