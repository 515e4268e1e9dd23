import Xv6.Sys.Kexec
import Xv6.Fs.Consistent

/-!
# `exec` is all or nothing

Whatever the file holds and whenever a page cannot be had, an `exec` that fails has changed nothing
(`exec_all_or_nothing`). The only panics are those of the search for the file.
-/

namespace Xv6.Vm

open Conc Eff

variable {K : Layout} {w : World} {me : ProcId} {R : Multiset ℕ} {argv : List (List UInt8)}
  {path : Fs.Path} {old tf : ℕ} {sb : Superblock} {T : Tab} {V : Vol} {b : Bound} {fs fs' : FsSt}

/-- Nothing has happened to a process with its table at `old` and its trap frame at `tf`, nor to free
pages, references to inodes and transactions. -/
structure Untouched (old tf : ℕ) (w w' : World) : Prop where
  procs : w'.mach.procs = w.mach.procs
  words : ∀ v < 2 ^ 20, pte w'.mach.phys.mem old v = pte w.mach.phys.mem old v
  bytes : ∀ a < 2 ^ 32, byteAt w'.mach.phys.mem old a = byteAt w.mach.phys.mem old a
  frame : ∀ i < pgsize, w'.mach.phys.mem (tf + i) = w.mach.phys.mem (tf + i)
  free : (w'.mach.phys.freelist : Multiset ℕ) = w.mach.phys.freelist
  refs : ∀ i, (w'.fs.mem.itable i).ref = (w.fs.mem.itable i).ref
  ops : w'.fs.outstanding = w.fs.outstanding

/-- Between calls the references are those of the tables, and there is no transaction. -/
theorem refs_of_idle (hd : During sb me fs T V (.idle b)) (hd' : During sb me fs' T V (.idle b)) :
    (∀ i, (fs'.mem.itable i).ref = (fs.mem.itable i).ref) ∧ fs'.outstanding = fs.outstanding := by
  obtain ⟨m, hs, hc, hp⟩ := hd
  obtain ⟨m', hs', hc', hp'⟩ := hd'
  refine ⟨fun i => ?_, hp'.ops.trans hp.ops.symm⟩
  rw [hs.mem, hs'.mem]
  exact (hc'.slots.ref i).trans (hc.slots.ref i).symm

/-- **`exec` is all or nothing.** From a state between calls, for every path and all arguments that
`sys_exec` can build: no run of `kexec` ends in a panic, but that the table of inodes may be full or
an entry of a directory may name an inode that is not in use; and if it returns -1, then nothing has
changed. -/
theorem exec_all_or_nothing (hfs : Fs.Between sb b w.fs)
    (hpt : (w.mach.procs me).pagetable = some old) (htf : (w.mach.procs me).trapframe = some tf)
    (hsp : Space K w.mach.phys.mem old (w.mach.procs me).sz tf)
    (hg : Good K w.mach.phys (tables w.mach.phys.mem old +
      (frames w.mach.phys.mem old (w.mach.procs me).sz tf + R)))
    (hlen : ∀ arg ∈ argv, arg.length < pgsize) (hcount : argv.length < maxarg) :
    wp (world me) (fun msg => msg = "iget: no inodes" ∨ msg = "ilock: no type")
      (kexec K me path argv) (fun r w' => r = -1 → Untouched old tf w w') w := by
  have hd := hfs.idle me
  refine kexec_wp hd Bound.free_ok (.inl (.inl rfl)) (.inl (.inr rfl)) hpt htf hsp hg hlen hcount
    (fun fs ph hd' hm _ => ?_) fun _ _ _ _ _ _ _ _ _ _ _ _ hr => absurd hr (by omega)
  have hg₀ := hg.cast (zero_add _).symm
  obtain ⟨-, -, -, hwords, hbytes⟩ := hsp.moved hg₀ hm
  obtain ⟨hrefs, hops⟩ := refs_of_idle hd hd'
  have htotal := hm.total
  rw [add_zero, add_zero] at htotal
  have hframe : K.Frame tf := hg.frame tf (.inr (by simp [frames]))
  refine ⟨rfl, hwords, hbytes, fun i hi => hm.keeps hg₀.nodup ?_, htotal, hrefs, hops⟩
  rw [pgrounddown_add hframe.aligned hi]
  simp [frames]

theorem exec_all_or_nothing_small : ∃ (w : World) (root : ℕ),
    Space smallLayout w.mach.phys.mem root 0x1000 0x2000 ∧
    wp (world (0 : ProcId)) (fun msg => msg = "iget: no inodes" ∨ msg = "ilock: no type")
      (kexec smallLayout 0 [97] [[97]]) (fun r w' => r = -1 → Untouched root 0x2000 w w') w := by
  obtain ⟨fs, hr⟩ := Mkfs.exists_reach_emptyImage
  obtain ⟨ph, root, hsp, hg⟩ := space_small
  exact ⟨oneProc fs ph root, root, hsp, exec_all_or_nothing (w := oneProc fs ph root)
    (hr.free Mkfs.imageOk_emptyImage) rfl rfl hsp hg (by decide) (by decide)⟩

end Xv6.Vm
