import Xv6.Sys.Load
import Xv6.Vm.Confined
import Xv6.Fs.Directory

/-!
# `read` of a file

`fileread` of an open file into the memory of the process. `readi` takes the count as an unsigned
word, so what it transfers is `asked`, and the bytes of the file from the offset on are stored one block
after the other (`readiLoop_wp`). That is the count that was meant unless the count is negative, would
lead to an offset below zero, and the offset is inside the file.
-/

namespace Xv6.Vm

open Conc Eff Vol

variable (K : Layout)

/-- `bp->data + off`, `m` bytes of it. -/
def blockData (x : Block) (off m : ℕ) : List UInt8 := (List.range' 0 m).map fun i => x.get (off + i)

/-- The loop of `readi` to user memory. -/
def readiLoop (self : Self) (ip : InodeId) (dst n : ℕ) : ℕ → ℕ → ℕ → Kern ℤ
  | 0, tot, _ => return tot
  | k + 1, tot, off =>
    if tot < n then do
      let addr ← onFs (Fs.bmap ip (off / bsize))
      if addr = 0 then
        return tot
      else
        let x ← onFs (Fs.bread addr)
        let m := min (n - tot) (bsize - off % bsize)
        if ← onMach (onPhys (copyout K self self.pagetable ((dst + tot) % 2 ^ 32)
            (blockData x (off % bsize) m))) then
          onFs (Fs.brelse addr)
          readiLoop self ip dst n k (tot + m) (off + m)
        else
          onFs (Fs.brelse addr)
          return -1
    else
      return tot

/-- `readi` to user memory. -/
def readi (me : ProcId) (ip : InodeId) (dst off n : ℕ) : Kern ℤ := do
  let d ← onFs (Fs.dinode ip)
  if d.size < off ∨ (off + n) % 2 ^ 32 < off then
    return 0
  else
    let n := if d.size < off + n then d.size - off else n
    let p ← onMach (pcb me)
    readiLoop K ⟨p.sz, p.pagetable.getD 0⟩ ip dst n n 0 off

/-- `fileread` of `n` bytes to `addr`; `dev` is what the device driver, or `piperead`, returns. -/
def fileread (me : ProcId) (f : FileId) (addr : ℕ) (n dev : ℤ) : Kern ℤ := do
  let v ← onFs (Fs.gets fun m => m.ftable f)
  if v.readable = false then
    return -1
  else match v.type with
    | .pipe => return dev
    | .device => return if v.major < Fs.ndev then dev else -1
    | .inode => do
      onFs (Fs.ilock v.ip)
      let off ← onFs (Fs.gets fun m => (m.ftable f).off)
      let r ← readi K me v.ip addr off (n % 2 ^ 32).toNat
      if 0 < r then
        onFs (Fs.advance f r.toNat)
      onFs (Fs.iunlock v.ip)
      return r
    | .none => onFs (Fs.panic "fileread")

/-! ## The bytes of a file -/

/-- The bytes of a list are those of a file from `off` on: each is the one in the buffer of its block,
or the one last logged. -/
def Holds (fs : FsSt) (i off : ℕ) (l : List UInt8) : Prop :=
  ∀ j < l.length, ∃ x, (x = fs.cached ((vol fs).ref i (.ofIndex ((off + j) / bsize))) ∨
    x = fs.logged ((vol fs).ref i (.ofIndex ((off + j) / bsize)))) ∧ l[j]? = some (x.get ((off + j) % bsize))

variable {K} {t : Tid} {err : String → Prop} {w w' : World} {me : ProcId} {ip : InodeId} {f : FileId}
  {fs : FsSt} {i off : ℕ} {l l' : List UInt8} {s₀ ph : Phys} {R : Multiset ℕ} {root sz tf a n : ℕ}

theorem Holds.nil : Holds fs i off [] := fun _ hj => absurd hj (Nat.not_lt_zero _)

theorem Holds.append (h : Holds fs i off l) (h' : Holds fs i (off + l.length) l') :
    Holds fs i off (l ++ l') := by
  intro j hj
  rw [List.length_append] at hj
  by_cases hlt : j < l.length
  · rw [List.getElem?_append_left hlt]
    exact h j hlt
  · have hx := h' (j - l.length) (by omega)
    rw [show off + l.length + (j - l.length) = off + j by omega] at hx
    rwa [List.getElem?_append_right (Nat.le_of_not_lt hlt)]

theorem length_blockData (x : Block) (off m : ℕ) : (blockData x off m).length = m := by
  unfold blockData
  rw [List.length_map, List.length_range']

/-- The bytes of a block of the file. -/
theorem holds_blockData {x : Block} {m : ℕ} (hm : off % bsize + m ≤ bsize)
    (hx : x = fs.cached ((vol fs).ref i (.ofIndex (off / bsize))) ∨
      x = fs.logged ((vol fs).ref i (.ofIndex (off / bsize)))) :
    Holds fs i off (blockData x (off % bsize) m) := by
  intro j hj
  rw [length_blockData] at hj
  have hd : (off + j) / bsize = off / bsize := by
    simp only [bsize] at *
    omega
  have hmod : (off + j) % bsize = off % bsize + j := by
    simp only [bsize] at *
    omega
  refine ⟨x, by rw [hd]; exact hx, ?_⟩
  unfold blockData
  rw [List.getElem?_map, List.getElem?_range' hj, hmod, Option.map_some, Nat.zero_add, Nat.one_mul]

/-- With no stores newer than the log, they are the contents of the file. -/
theorem Holds.eq_fileBytes {m : Mem} {V : Vol} (h : Holds fs i off l) (hs : Xv6.Shows fs m V)
    (ok : VolOk m.sb V) (hc : Clear V i) (ht : (V.ino i).type ≠ 0)
    (hl : off + l.length ≤ (V.ino i).size) : l = fileBytes (V.node i) off l.length := by
  refine List.ext_getElem? fun j => ?_
  by_cases hj : j < l.length
  · obtain ⟨x, hx, hget⟩ := h j hj
    rw [hs.vol] at hx
    have hfill := (ok.filled i ht).block ((off + j) / bsize) (by simp only [bsize]; omega)
    have hdata := (ok.owned.used_ref ht hfill).1
    have hblk : x = V.blk (V.ref i (.ofIndex ((off + j) / bsize))) := by
      rw [← hs.blk_eq hdata]
      exact hx.elim (fun hx => hx.trans (hs.cached_eq hdata (hc _ hfill))) id
    rw [hget, fileBytes, List.getElem?_map, List.getElem?_range' hj, Option.map_some, Nat.one_mul,
      node_of_ne ht, hblk]
    simp only
    rw [if_pos (by omega)]
    rfl
  · rw [List.getElem?_eq_none (Nat.le_of_not_lt hj),
      List.getElem?_eq_none (by rw [length_fileBytes]; exact Nat.le_of_not_lt hj)]

/-! ## The loop of `readi` -/

/-- The bytes of a list have been stored at `a` in the memory of a process, and what lies behind them
can be used as before. -/
structure Stored (K : Layout) (root sz tf : ℕ) (R : Multiset ℕ) (a n : ℕ) (s : Phys) (l : List UInt8)
    (ph : Phys) : Prop where
  copied : Copied K root sz tf R (pagesOf a l.length) (put a l (seen s.mem root sz)) s ph
  low : a + l.length < 2 ^ 32
  le : l.length ≤ n
  rest : Reach true s root sz a n → Reach true ph root sz (a + l.length) (n - l.length)

theorem pagesOf_append {m : ℕ} : pagesOf a n ∪ pagesOf (a + n) m ⊆ pagesOf a (n + m) := by
  intro v hv
  obtain hv | hv := Finset.mem_union.1 hv
  · obtain ⟨b, h₁, h₂, rfl⟩ := mem_pagesOf.1 hv
    exact mem_pagesOf.2 ⟨b, h₁, by omega, rfl⟩
  · obtain ⟨b, h₁, h₂, rfl⟩ := mem_pagesOf.1 hv
    exact mem_pagesOf.2 ⟨b, by omega, by omega, rfl⟩

/-- More bytes, behind those that have been stored. -/
theorem Copied.append {s' s'' : Phys}
    (h : Copied K root sz tf R (pagesOf a l.length) (put a l (seen s₀.mem root sz)) s₀ s')
    (h' : Copied K root sz tf R (pagesOf (a + l.length) l'.length)
      (put (a + l.length) l' (seen s'.mem root sz)) s' s'') :
    Copied K root sz tf R (pagesOf a (l ++ l').length) (put a (l ++ l') (seen s₀.mem root sz)) s₀ s'' := by
  refine (h.trans h').cast ?_ fun b hb => ?_
  · rw [List.length_append]
    exact pagesOf_append
  · rw [put_congr (h.looks b hb), put_append]

theorem Stored.append {s'' : Phys} (h : Stored K root sz tf R a n s₀ l ph)
    (hc : Copied K root sz tf R (pagesOf (a + l.length) l'.length)
      (put (a + l.length) l' (seen ph.mem root sz)) ph s'')
    (hr : Reach true ph root sz (a + l.length) l'.length) (hle : l.length + l'.length ≤ n)
    (htail : ∀ j, Reach true ph root sz (a + l.length) (l'.length + j) →
      Reach true s'' root sz (a + l.length + l'.length) j) :
    Stored K root sz tf R a n s₀ (l ++ l') s'' := by
  have hlow := h.low
  refine ⟨h.copied.append hc, ?_, by rw [List.length_append]; exact hle, fun hreach => ?_⟩
  · rw [List.length_append]
    by_cases h0 : l'.length = 0
    · omega
    · have hpg := h.copied.space.pgs_le_num
      have hlast := h.copied.space.reach_lt hlow hr.usable (b := a + l.length + l'.length - 1) (by omega)
        (by omega)
      simp only [pgsize] at *
      omega
  · have hmore := htail (n - l.length - l'.length) (by
      rw [show l'.length + (n - l.length - l'.length) = n - l.length by omega]
      exact h.rest hreach)
    rw [List.length_append, ← Nat.add_assoc]
    rwa [show n - (l.length + l'.length) = n - l.length - l'.length by omega]

section Loop

variable {V : Vol} {m : Mem} (hi : (m.itable ip).inum = i) (hv : Views w.fs m ip V)
  (hvol : vol w.fs = V) (ok : VolOk m.sb V) (ht : (V.ino i).type ≠ 0)

include hi hv hvol ok ht

/-- The loop of `readi`: all bytes are stored, or not all of them can be. -/
theorem readiLoop_wp {k : ℕ} {Q : ℤ → World → Prop}
    (hst : Stored K root sz tf R a n s₀ l w.mach.phys) (hl : Holds w.fs i off l)
    (hin : off + n ≤ (V.ino i).size) (hk : n - l.length ≤ k)
    (hQ : ∀ l' ph, Holds w.fs i off l' →
      Copied K root sz tf R (pagesOf a l'.length) (put a l' (seen s₀.mem root sz)) s₀ ph →
      (l'.length = n → Q n (w.withPhys ph)) ∧ (¬ Reach true s₀ root sz a n → Q (-1) (w.withPhys ph))) :
    wp (world t) err (readiLoop K ⟨sz, root⟩ ip a n k l.length (off + l.length)) Q w := by
  induction k generalizing w l with
  | zero =>
    have hle := hst.le
    obtain rfl : n = l.length := by omega
    exact wp_pure ((hQ l _ hl hst.copied).1 rfl)
  | succ k ih =>
    unfold readiLoop
    by_cases hlt : l.length < n
    · rw [if_pos hlt]
      have hblock : (off + l.length) / bsize * bsize < (V.ino i).size := by
        simp only [bsize]
        omega
      have hx := (ok.filled i ht).block _ hblock
      have hbn : (off + l.length) / bsize < maxfile := by
        have := (ok.filled i ht).size
        simp only [maxfile, bsize] at *
        omega
      refine wp_bind (wp_onFs (Fs.bmap_present hi hv ok ht hbn hx ?_))
      rw [if_neg hx]
      refine wp_bind (wp_onFs (Fs.bread_wp fun x hxb => ?_))
      obtain ⟨l', hl'⟩ : ∃ l', l' = blockData x ((off + l.length) % bsize)
          (min (n - l.length) (bsize - (off + l.length) % bsize)) := ⟨_, rfl⟩
      have hlen : l'.length = min (n - l.length) (bsize - (off + l.length) % bsize) := by
        rw [hl', length_blockData]
      have hpos : 0 < l'.length := by
        rw [hlen]
        simp only [bsize]
        omega
      have hmod : (a + l.length) % 2 ^ 32 = a + l.length := Nat.mod_eq_of_lt hst.low
      have hheld : Holds w.fs i (off + l.length) l' := by
        rw [hl']
        rw [← hvol] at hxb
        exact holds_blockData (by simp only [bsize]; omega) hxb
      simp only
      rw [hmod, ← hl', ← hlen]
      by_cases hr : Reach true w.mach.phys root sz (a + l.length) l'.length
      · obtain ⟨s'', hrun, hc, htail⟩ :=
          copyout_all hst.copied.space hst.copied.good hst.low hr
        refine wp_bind (wp_onPhys (.of_eq hrun ?_))
        rw [if_pos rfl]
        refine wp_bind (wp_onFs (Fs.brelse_wp ?_))
        have hst' := hst.append hc hr (by omega) htail
        have hlen' : (l ++ l').length = l.length + l'.length := List.length_append
        rw [Nat.add_assoc off, ← hlen']
        refine ih (w := w.withPhys s'') hv hvol hst' (hl.append hheld) (by omega) hQ
      · obtain ⟨n', s'', hrun, hext, hc⟩ :=
          copyout_ends hst.copied.space hst.copied.good hst.low l'
        have hne : n' ≠ l'.length := fun e => hr (hext.full_iff.1 e)
        rw [decide_eq_false hne] at hrun
        refine wp_bind (wp_onPhys (.of_eq hrun ?_))
        rw [if_neg (by decide)]
        refine wp_bind (wp_onFs (Fs.brelse_wp (wp_pure ?_)))
        have htake : (l'.take n').length = n' := by
          rw [List.length_take]
          exact Nat.min_eq_left hext.le
        have hpart : Copied K root sz tf R (pagesOf (a + l.length) (l'.take n').length)
            (put (a + l.length) (l'.take n') (seen w.mach.phys.mem root sz)) w.mach.phys s'' := by
          rw [htake]
          exact hc
        have hc' := hst.copied.append hpart
        refine (hQ _ s'' (hl.append fun j hj => ?_) hc').2 fun hreach => hr ?_
        · rw [htake] at hj
          rw [List.getElem?_take_of_lt hj]
          exact hheld j (by have := hext.le; omega)
        · exact (hst.rest hreach).mono (by omega)
    · have hle := hst.le
      obtain rfl : n = l.length := by omega
      rw [if_neg hlt]
      exact wp_pure ((hQ l _ hl hst.copied).1 rfl)

end Loop

/-! ## `fileread` -/

/-- The number of bytes that `readi` transfers, of a file of a size, when it is asked for `n`. -/
def asked (size off n : ℕ) : ℕ :=
  if size < off ∨ (off + n) % 2 ^ 32 < off then 0 else min n (size - off)

/-- A process with an open file that it may read, between calls. -/
structure Reading (K : Layout) (sb : Superblock) (me : ProcId) (f : FileId) (root tf : ℕ)
    (R : Multiset ℕ) (w : World) : Prop where
  fs : Fs.Between sb .free w.fs
  fd : ∃ p fd, (w.fs.mem.proc p).ofile fd = some f
  type : (w.fs.mem.ftable f).type = .inode
  readable : (w.fs.mem.ftable f).readable = true
  off : (w.fs.mem.ftable f).off < 2 ^ 32
  table : (w.mach.procs me).pagetable = some root
  space : Space K w.mach.phys.mem root (w.mach.procs me).sz tf
  good : Good K w.mach.phys (tables w.mach.phys.mem root +
    (frames w.mach.phys.mem root (w.mach.procs me).sz tf + R))

/-- The number of the inode of an open file. -/
def World.inum (w : World) (f : FileId) : ℕ := (w.fs.mem.itable (w.fs.mem.ftable f).ip).inum

/-- Its size. -/
def World.size (w : World) (f : FileId) : ℕ := ((vol w.fs).ino (w.inum f)).size

/-- Its offset. -/
def World.offset (w : World) (f : FileId) : ℕ := (w.fs.mem.ftable f).off

/-- Blocks, buffers and the numbers of the inodes in use are the same. -/
structure SameData (s s' : FsSt) : Prop where
  cached : s'.cached = s.cached
  logged : s'.logged = s.logged
  inum : ∀ ip, (s'.mem.itable ip).inum = (s.mem.itable ip).inum

theorem SameData.holds {s s' : FsSt} (h : SameData s s') (hvol : vol s' = vol s)
    (hl : Holds s' i off l) : Holds s i off l := by
  intro j hj
  obtain ⟨x, hx, hget⟩ := hl j hj
  rw [hvol, h.cached, h.logged] at hx
  exact ⟨x, hx, hget⟩

section Same

variable {α : Type} {s : FsSt}

end Same

theorem Copied.nil {s : Phys} (hsp : Space K s.mem root sz tf)
    (hg : Good K s (tables s.mem root + (frames s.mem root sz tf + R))) :
    Copied K root sz tf R (pagesOf a ([] : List UInt8).length) (put a [] (seen s.mem root sz)) s s := by
  rw [List.length_nil, pagesOf_zero, put_nil]
  exact copied_idle hsp hg .refl

/-- `readi` of a locked inode to user memory. -/
theorem readi_wp {sb : Superblock} {T : Tab} {V : Vol} {h : Hand} {Q : ℤ → World → Prop}
    (hd : During sb t w.fs T V h) (hx : (ip, i) ∈ h.locks)
    (hpt : (w.mach.procs me).pagetable = some root)
    (hsp : Space K w.mach.phys.mem root (w.mach.procs me).sz tf)
    (hg : Good K w.mach.phys (tables w.mach.phys.mem root +
      (frames w.mach.phys.mem root (w.mach.procs me).sz tf + R))) (ha : a < 2 ^ 32)
    (hQ : ∀ l ph, Holds w.fs i off l →
      Copied K root (w.mach.procs me).sz tf R (pagesOf a l.length)
        (put a l (seen w.mach.phys.mem root (w.mach.procs me).sz)) w.mach.phys ph →
      (l.length = asked (V.ino i).size off n → Q (asked (V.ino i).size off n) (w.withPhys ph)) ∧
      (¬ Reach true w.mach.phys root (w.mach.procs me).sz a (asked (V.ino i).size off n) →
        Q (-1) (w.withPhys ph))) :
    wp (world t) err (readi K me ip a off n) Q w := by
  obtain ⟨m, hs, hc, -⟩ := hd
  obtain rfl := hc.super
  obtain ⟨hi, hv, -, ht⟩ := Fs.Core.views hc hs hx
  refine wp_bind (wp_onFs (Fs.dinode_views hv ?_))
  rw [hi]
  unfold asked at hQ
  split
  · rename_i hno
    rw [if_pos hno] at hQ
    exact wp_pure ((hQ [] _ .nil (.nil hsp hg)).1 rfl)
  · rename_i hyes
    rw [if_neg hyes] at hQ
    rw [not_or, not_lt] at hyes
    have hlen : (if (V.ino i).size < off + n then (V.ino i).size - off else n) =
        min n ((V.ino i).size - off) := by
      split <;> omega
    simp only [hlen]
    refine wp_bind (wp_onMach (.of_eq rfl ?_))
    rw [hpt, Option.getD_some]
    refine readiLoop_wp hi hv hs.vol hc.ok ht (l := []) ⟨.nil hsp hg, ?_, Nat.zero_le _, id⟩ .nil (by omega)
      (Nat.sub_le _ _) hQ
    exact ha

/-- A `fileread` to `a` has returned `r`, with the bytes `l` of the file in the memory of the process. -/
structure Transferred (K : Layout) (sb : Superblock) (me : ProcId) (f : FileId) (root tf : ℕ)
    (R : Multiset ℕ) (a : ℕ) (w : World) (r : ℤ) (l : List UInt8) (w' : World) : Prop where
  reading : Reading K sb me f root tf R w'
  procs : w'.mach.procs = w.mach.procs
  holds : Holds w.fs (w.inum f) (w.offset f) l
  copied : Copied K root (w.mach.procs me).sz tf R (pagesOf a l.length)
    (put a l (seen w.mach.phys.mem root (w.mach.procs me).sz)) w.mach.phys w'.mach.phys
  offset : w'.offset f = w.offset f + r.toNat
  inum : w'.inum f = w.inum f
  same : SameData w.fs w'.fs
  vol : Xv6.vol w'.fs = Xv6.vol w.fs

theorem SameData.refl (s : FsSt) : SameData s s := ⟨rfl, rfl, fun _ => rfl⟩

/-- What has been stored is what is seen there. -/
theorem Transferred.bytes {sb : Superblock} {r : ℤ} (h : Transferred K sb me f root tf R a w r l w')
    (hw : Reading K sb me f root tf R w) (ha : a < 2 ^ 32)
    (hdst : Reach true w.mach.phys root (w.mach.procs me).sz a l.length) (hlen : l'.length = l.length)
    (hmem : Shows w'.mach.phys.mem root (w.mach.procs me).sz a l') : l' = l := by
  have hpg := hw.space.pgs_le_num
  refine List.ext_getElem? fun j => ?_
  by_cases hj : j < l.length
  · have hlt := hw.space.reach_lt ha hdst.usable (b := a + j) (by omega) (by omega)
    rw [← hmem j (by omega), h.copied.looks _ (by simp only [pgsize] at *; omega), put,
      if_pos (by omega), Nat.add_sub_cancel_left]
  · rw [List.getElem?_eq_none (by omega), List.getElem?_eq_none (by omega)]

end Xv6.Vm
