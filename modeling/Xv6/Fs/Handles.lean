import Xv6.Fs.Path

/-!
# Open files in the middle of a call

References move between local variables, descriptors and files. Rules for `filealloc`, `filedup`,
`fdalloc`, `fileclose`, and for the stores that make a file refer to an inode or a process to its
current directory.
-/

namespace Xv6

open Conc Eff Vol Own Count

/-! ## References to inodes -/

namespace Slots

variable {sb : Superblock} {t : Tid} {T T' : Tab} {I : InodeId → Inode} {V : Vol} {h : Hand}
  {ip : InodeId} {i : ℕ}

/-- Nobody's references change. -/
theorem retab (hs : Slots sb t T I V h) (hu : ∀ j, T'.users j = T.users j)
    (hw : ∀ f j, (T'.ftable f).Refers j → (T'.ftable f).writable = true →
      (T.ftable f).Refers j ∧ (T.ftable f).writable = true) : Slots sb t T' I V h := by
  have hUsed : ∀ j, h.Used T' j ↔ h.Used T j := fun j => by
    unfold Hand.Used
    rw [hu]
  refine hs.recount (fun _ => rfl) (fun j => by rw [hu]; exact hs.ref j)
    (fun j => by rw [hu]; exact hs.owed j) rfl rfl (fun x hx => (hUsed x.1).2 (hs.held x hx).1)
    (fun x hx => hs.name x (.inl hx)) (fun j => (hUsed j).1) (fun j hj => .inl (by rwa [hu] at hj))
    (fun f j hf hwr hj => ?_) fun j _ _ hd => by rwa [hu]
  rw [hu] at hj
  exact hs.writable f j (hw f j hf hwr).1 (hw f j hf hwr).2 hj

/-- A pointer in the tables takes a reference of the call. -/
theorem give (hs : Slots sb t T I V (h.take ip i)) (ht : (V.ino i).type ≠ 0)
    (hself : T'.users ip = T.users ip + 1) (hne : ∀ j, j ≠ ip → T'.users j = T.users j)
    (hw : ∀ f j, (T'.ftable f).Refers j → (T'.ftable f).writable = true →
      (T.ftable f).Refers j ∧ (T.ftable f).writable = true ∧ j ≠ ip ∨ (V.ino (I j).inum).type ≠ tDir) :
    Slots sb t T' I V h := by
  have hi : (I ip).inum = i := hs.name (ip, i) (.inl List.mem_cons_self)
  have howed : ∀ j, h.owed.count j ≤ T.users j := hs.owed
  have hUsed : ∀ j, h.Used T' j ↔ (h.take ip i).Used T j := fun j => by
    unfold Hand.Used
    by_cases hj : j = ip
    · rw [hj, hself, Hand.count_take_self]
      simp only [Hand.take]
      omega
    · rw [hne j hj, Hand.count_take_of_ne hj]
      rfl
  refine hs.recount (fun _ => rfl) (fun j => ?_) (fun j => ?_) rfl rfl
    (fun x hx => (hUsed x.1).2 (hs.held x hx).1)
    (fun x hx => hs.name x (.inl (List.mem_cons_of_mem _ hx))) (fun j => (hUsed j).1) (fun j hj => ?_)
    (fun f j hf hwr hj => ?_) fun j _ _ hd => ?_
  · have := hs.ref j
    by_cases hj : j = ip
    · rw [hj] at this ⊢
      rw [Hand.count_take_self] at this
      rw [hself]
      simp only [Hand.take] at *
      omega
    · rw [Hand.count_take_of_ne hj] at this
      rw [hne j hj]
      exact this
  · by_cases hj : j = ip
    · rw [hj, hself]
      exact (howed ip).trans (Nat.le_succ _)
    · rw [hne j hj]
      exact howed j
  · by_cases hjp : j = ip
    · rw [hjp, hi]
      exact .inr ht
    · rw [hne j hjp] at hj
      exact .inl hj
  · rcases hw f j hf hwr with ⟨hf', hwr', hjp⟩ | hd
    · rw [hne j hjp] at hj
      exact hs.writable f j hf' hwr' hj
    · exact hd
  · by_cases hj : j = ip
    · left
      rw [hj, hself]
      exact Nat.lt_succ_of_le (howed ip)
    · rw [Hand.count_take_of_ne hj] at hd
      rw [hne j hj]
      exact hd

/-- The reference of a pointer in the tables goes to the call, which then drops it. -/
theorem receive (hs : Slots sb t T I V h) (hu : h.owed.count ip < T.users ip)
    (hself : T'.users ip + 1 = T.users ip) (hne : ∀ j, j ≠ ip → T'.users j = T.users j)
    (hw : ∀ f j, (T'.ftable f).Refers j → (T'.ftable f).writable = true →
      (T.ftable f).Refers j ∧ (T.ftable f).writable = true) :
    Slots sb t T' I V ((h.pin ip).take ip (I ip).inum) := by
  have hle : ∀ j, T'.users j ≤ T.users j := fun j => by
    by_cases hj : j = ip
    · rw [hj]
      omega
    · rw [hne j hj]
  have hcount : ∀ j, j ≠ ip → ((h.pin ip).take ip (I ip).inum).count j = h.count j :=
    fun j hj => Hand.count_take_of_ne hj
  have hcount' : ((h.pin ip).take ip (I ip).inum).count ip = h.count ip + 1 := Hand.count_take_self
  have howed : ((h.pin ip).take ip (I ip).inum).owed = h.owed := rfl
  have hUsed : ∀ j, ((h.pin ip).take ip (I ip).inum).Used T' j ↔ h.Used T j := fun j => by
    unfold Hand.Used
    by_cases hj : j = ip
    · rw [hj, hcount', howed]
      omega
    · rw [hne j hj, hcount j hj, howed]
  refine hs.recount (fun _ => rfl) (fun j => ?_) (fun j => ?_) rfl rfl
    (fun x hx => (hUsed x.1).2 (hs.held x hx).1) (fun x hx => ?_) (fun j => (hUsed j).1)
    (fun j hj => .inl (hj.trans_le (hle j)))
    (fun f j hf hwr hj => hs.writable f j (hw f j hf hwr).1 (hw f j hf hwr).2 (hj.trans_le (hle j)))
    fun j _ _ hd => ?_
  · have := hs.ref j
    by_cases hj : j = ip
    · rw [hj] at this ⊢
      rw [hcount', howed]
      omega
    · rw [hcount j hj, hne j hj]
      exact this
  · have := hs.owed j
    by_cases hj : j = ip
    · rw [hj, howed]
      omega
    · rw [hne j hj]
      exact this
  · rcases List.mem_cons.1 hx with rfl | hx
    · rfl
    · exact hs.name x (.inl hx)
  · by_cases hj : j = ip
    · rw [hj, hcount']
      exact .inr ⟨List.mem_cons_self, Nat.succ_pos _⟩
    · rw [hne j hj, hcount j hj]
      exact hd.imp_right fun hp => ⟨List.mem_cons_of_mem _ hp.1, hp.2⟩

/-- The reference of a pointer that stays in the tables for now goes to the call. -/
theorem borrow (hs : Slots sb t T I V h) (hu : h.owed.count ip < T.users ip) :
    Slots sb t T I V { (h.pin ip).take ip (I ip).inum with owed := ip :: h.owed } := by
  have hcount : ∀ j, h.owed.count j ≤ (ip :: h.owed).count j := fun j =>
    List.count_le_count_cons
  have hne : ∀ j, j ≠ ip → (ip :: h.owed).count j = h.owed.count j := fun j hj =>
    List.count_cons_of_ne hj.symm
  have hself : (ip :: h.owed).count ip = h.owed.count ip + 1 := List.count_cons_self
  have hne' : ∀ j, j ≠ ip →
      Hand.count { (h.pin ip).take ip (I ip).inum with owed := ip :: h.owed } j = h.count j :=
    fun j hj => Hand.count_take_of_ne hj
  have hself' : Hand.count { (h.pin ip).take ip (I ip).inum with owed := ip :: h.owed } ip =
      h.count ip + 1 := Hand.count_take_self
  have hUsed : ∀ j, Hand.Used { (h.pin ip).take ip (I ip).inum with owed := ip :: h.owed } T j ↔
      h.Used T j := fun j => by
    unfold Hand.Used
    by_cases hj : j = ip
    · rw [hj, hself', hself]
      omega
    · rw [hne j hj, hne' j hj]
  refine hs.recount (fun _ => rfl) (fun j => ?_) (fun j => ?_) rfl rfl
    (fun x hx => (hUsed x.1).2 (hs.held x hx).1) (fun x hx => ?_) (fun j => (hUsed j).1)
    (fun j hj => .inl ((hcount j).trans_lt hj))
    (fun f j hf hwr hj => hs.writable f j hf hwr ((hcount j).trans_lt hj)) fun j _ _ hd => ?_
  · have := hs.ref j
    by_cases hj : j = ip
    · rw [hj] at this ⊢
      rw [hself', hself]
      omega
    · rw [hne' j hj, hne j hj]
      exact this
  · by_cases hj : j = ip
    · rw [hj, hself]
      exact hu
    · rw [hne j hj]
      exact hs.owed j
  · rcases List.mem_cons.1 hx with rfl | hx
    · rfl
    · exact hs.name x (.inl hx)
  · by_cases hj : j = ip
    · rw [hj, hself']
      exact .inr ⟨List.mem_cons_self, Nat.succ_pos _⟩
    · rw [hne j hj, hne' j hj]
      exact hd.imp_right fun hp => ⟨List.mem_cons_of_mem _ hp.1, hp.2⟩

/-- A pointer whose reference is dropped goes away. -/
theorem settle (hs : Slots sb t T I V { h with owed := ip :: h.owed })
    (hself : T'.users ip + 1 = T.users ip) (hne : ∀ j, j ≠ ip → T'.users j = T.users j)
    (hw : ∀ f j, (T'.ftable f).Refers j → (T'.ftable f).writable = true →
      (T.ftable f).Refers j ∧ (T.ftable f).writable = true) : Slots sb t T' I V h := by
  have hne' : ∀ j, j ≠ ip → (ip :: h.owed).count j = h.owed.count j := fun j hj =>
    List.count_cons_of_ne hj.symm
  have hself' : (ip :: h.owed).count ip = h.owed.count ip + 1 := List.count_cons_self
  have hlt : ∀ j, h.owed.count j < T'.users j ↔ (ip :: h.owed).count j < T.users j := fun j => by
    by_cases hj : j = ip
    · rw [hj, hself', ← hself]
      omega
    · rw [hne' j hj, hne j hj]
  have hUsed : ∀ j, h.Used T' j ↔ Hand.Used { h with owed := ip :: h.owed } T j := fun j => by
    unfold Hand.Used
    by_cases hj : j = ip
    · rw [hj, hself', ← hself]
      simp only [Hand.count]
      omega
    · rw [hne' j hj, hne j hj]
      rfl
  refine hs.recount (fun _ => rfl) (fun j => ?_) (fun j => ?_) rfl rfl
    (fun x hx => (hUsed x.1).2 (hs.held x hx).1) (fun x hx => hs.name x (.inl hx))
    (fun j => (hUsed j).1) (fun j hj => .inl ((hlt j).1 hj))
    (fun f j hf hwr hj => hs.writable f j (hw f j hf hwr).1 (hw f j hf hwr).2 ((hlt j).1 hj))
    fun j _ _ hd => hd.imp_left (hlt j).2
  · have := hs.ref j
    by_cases hj : j = ip
    · rw [hj] at this ⊢
      rw [hself'] at this
      simp only [Hand.count] at *
      omega
    · rw [hne' j hj] at this
      rw [hne j hj]
      exact this
  · have := hs.owed j
    by_cases hj : j = ip
    · rw [hj] at this ⊢
      rw [hself'] at this
      omega
    · rw [hne' j hj] at this
      rw [hne j hj]
      exact this

end Slots

/-! ## References to files -/

namespace Files

variable {T T' : Tab} {h h' : Hand} {f f₁ : FileId} {v v₁ : File} {p : ProcId} {fd : Fin nofile}
  {a : PipeId}

theorem endOf_setFile_of_ne {g : FileId} (hg : g ≠ f) : (T.setFile f v).endOf g = T.endOf g := by
  unfold Tab.endOf
  rw [Tab.setFile_ftable_of_ne hg]

theorem endOf_setFile_self :
    (T.setFile f v).endOf f = if v.type = .pipe then some (v.pipe, v.writable) else none := by
  unfold Tab.endOf
  rw [Tab.setFile_ftable_self]

/-- A change of a file that leaves the pipes alone. -/
theorem setFile (hf : Files T h) (hself : v.ref + h'.fowed.count f = T.fds f + h'.files.count f)
    (hne : ∀ g, g ≠ f → h'.fowed.count g = h.fowed.count g ∧ h'.files.count g = h.files.count g)
    (hclosed : v.ref = 0 → v.type = .none)
    (htyped : h'.fowed.count f < T.fds f → v.type ≠ .none)
    (hend : (if v.type = .pipe then some (v.pipe, v.writable) else none) = T.endOf f) :
    Files (T.setFile f v) h' := by
  refine ⟨fun g => ?_, fun g => ?_, fun g hg' => ?_, hf.ends.congr (fun g => ?_) fun _ => Iff.rfl,
    hf.page⟩
  · by_cases hg : g = f
    · rw [hg, Tab.setFile_ftable_self]
      exact hself
    · rw [Tab.setFile_ftable_of_ne hg, (hne g hg).1, (hne g hg).2]
      exact hf.ref g
  · by_cases hg : g = f
    · rw [hg, Tab.setFile_ftable_self]
      exact hclosed
    · rw [Tab.setFile_ftable_of_ne hg]
      exact hf.closed g
  · rw [Tab.fds_setFile] at hg'
    by_cases hg : g = f
    · rw [hg] at hg'
      rw [hg, Tab.setFile_ftable_self]
      exact htyped hg'
    · rw [(hne g hg).1] at hg'
      rw [Tab.setFile_ftable_of_ne hg]
      exact hf.typed g hg'
  · by_cases hg : g = f
    · rw [hg, endOf_setFile_self]
      exact hend
    · exact endOf_setFile_of_ne hg

theorem endOf_eq_none (ht : (T.ftable f).type ≠ .pipe) : T.endOf f = none := if_neg ht

theorem count_cons_of_ne {l : List FileId} {g : FileId} (hg : g ≠ f) :
    (f :: l).count g = l.count g := List.count_cons_of_ne hg.symm

/-- `filealloc` takes a file without references. -/
theorem alloc (hf : Files T h) (h0 : (T.ftable f).ref = 0) :
    Files (T.setFile f { T.ftable f with ref := 1 }) { h with files := f :: h.files } := by
  have hr := hf.ref f
  refine hf.setFile ?_ (fun g hg => ⟨rfl, count_cons_of_ne hg⟩) (fun h1 => ?_) (hf.typed f) rfl
  · rw [List.count_cons_self]
    simp only
    omega
  · simp at h1

/-- `filedup`. -/
theorem dup (hf : Files T h) :
    Files (T.setFile f { T.ftable f with ref := (T.ftable f).ref + 1 })
      { h with files := f :: h.files } := by
  have hr := hf.ref f
  refine hf.setFile ?_ (fun g hg => ⟨rfl, count_cons_of_ne hg⟩) (fun h1 => ?_) (hf.typed f) rfl
  · rw [List.count_cons_self]
    simp only
    omega
  · simp at h1

/-- A reference that is not the last is dropped. -/
theorem drop (hf : Files T { h with files := f :: h.files }) (hpos : 1 < (T.ftable f).ref) :
    Files (T.setFile f { T.ftable f with ref := (T.ftable f).ref - 1 }) h := by
  have hr := hf.ref f
  simp only [List.count_cons_self] at hr
  refine hf.setFile ?_ (fun g hg => ⟨rfl, (count_cons_of_ne hg).symm⟩) (fun h1 => ?_) (hf.typed f) rfl
  · simp only
    omega
  · simp only at h1
    omega

/-- The last reference to a file that is no pipe is dropped. -/
theorem close (hf : Files T { h with files := f :: h.files }) (h1 : (T.ftable f).ref = 1)
    (ht : (T.ftable f).type ≠ .pipe) :
    Files (T.setFile f { T.ftable f with ref := 0, type := .none }) h := by
  have hr := hf.ref f
  simp only [List.count_cons_self] at hr
  refine hf.setFile ?_ (fun g hg => ⟨rfl, (count_cons_of_ne hg).symm⟩) (fun _ => rfl) (fun hlt => ?_) ?_
  · simp only
    omega
  · omega
  · rw [endOf_eq_none ht]
    rfl

/-- Nobody's references to files change when a file that is no pipe gets other contents. -/
theorem refer (hf : Files T h) (hr : v.ref = (T.ftable f).ref) (h0 : (T.ftable f).ref ≠ 0)
    (ht : (T.ftable f).type ≠ .pipe) (hv : v.type ≠ .pipe) (hv₀ : v.type ≠ .none) :
    Files (T.setFile f v) h := by
  refine hf.setFile (by rw [hr]; exact hf.ref f) (fun g _ => ⟨rfl, rfl⟩)
    (fun h' => absurd (hr.symm.trans h') h0) (fun _ => hv₀) ?_
  rw [endOf_eq_none ht, if_neg hv]

/-- A change of the descriptors. -/
theorem setOfile {o : Option FileId} (hf : Files T h)
    (href : ∀ g, (T.setOfile p fd o).fds g + h'.files.count g + h.fowed.count g =
      T.fds g + h.files.count g + h'.fowed.count g)
    (hlt : ∀ g, h'.fowed.count g < (T.setOfile p fd o).fds g → h.fowed.count g < T.fds g) :
    Files (T.setOfile p fd o) h' := by
  refine ⟨fun g => ?_, hf.closed, fun g hg => hf.typed g (hlt g hg), hf.ends, hf.page⟩
  have h₁ := hf.ref g
  have h₂ := href g
  rw [Tab.setOfile_ftable]
  omega

/-- `fdalloc`. -/
theorem put (hf : Files T h) (hnone : (T.proc p).ofile fd = none) :
    Files (T.setOfile p fd (some f)) { h with fowed := f :: h.fowed } := by
  have hfds : ∀ g, (T.setOfile p fd (some f)).fds g + h.fowed.count g =
      T.fds g + (f :: h.fowed).count g := fun g => by
    have h₁ : (T.setOfile p fd (some f)).fds g + (if (T.proc p).ofile fd = some g then 1 else 0) =
        T.fds g + if some f = some g then 1 else 0 := Tab.fds_setOfile
    rw [hnone, if_neg (show ¬ none = some g by simp)] at h₁
    by_cases hg : g = f
    · subst hg
      rw [if_pos rfl] at h₁
      rw [List.count_cons_self]
      omega
    · rw [if_neg fun e => hg (Option.some.inj e).symm] at h₁
      rw [count_cons_of_ne hg]
      omega
  refine hf.setOfile (fun g => ?_) fun g hg => ?_
  · have := hfds g
    simp only
    omega
  · have := hfds g
    simp only at hg
    omega

/-- The descriptors after one is cleared. -/
theorem fds_clear (hsome : (T.proc p).ofile fd = some f) (g : FileId) :
    (T.setOfile p fd none).fds g + [f].count g = T.fds g := by
  have h₁ : (T.setOfile p fd none).fds g + (if (T.proc p).ofile fd = some g then 1 else 0) =
      T.fds g + if none = some g then 1 else 0 := Tab.fds_setOfile
  rw [hsome, if_neg (show ¬ none = some g by simp)] at h₁
  by_cases hg : g = f
  · subst hg
    rw [if_pos rfl] at h₁
    rw [List.count_cons_self, List.count_nil]
    omega
  · rw [if_neg fun e => hg (Option.some.inj e).symm] at h₁
    rw [count_cons_of_ne hg, List.count_nil]
    omega

/-- A descriptor's reference goes to the call. -/
theorem remove (hf : Files T h) (hsome : (T.proc p).ofile fd = some f) :
    Files (T.setOfile p fd none) { h with files := f :: h.files } := by
  refine hf.setOfile (fun g => ?_) fun g hg => ?_
  · have := fds_clear hsome g
    simp only [List.count_cons, List.count_nil] at *
    omega
  · have := fds_clear hsome g
    simp only at hg
    omega

/-- A descriptor whose reference is dropped is cleared. -/
theorem removeOwed (hf : Files T { h with fowed := f :: h.fowed })
    (hsome : (T.proc p).ofile fd = some f) : Files (T.setOfile p fd none) h := by
  refine hf.setOfile (fun g => ?_) fun g hg => ?_
  · have := fds_clear hsome g
    simp only [List.count_cons, List.count_nil] at *
    omega
  · have := fds_clear hsome g
    simp only [List.count_cons, List.count_nil] at *
    omega

/-- A reference of the call is that of a descriptor. -/
theorem settle (hf : Files T { h with files := f :: h.files, fowed := f :: h.fowed })
    (ht : (T.ftable f).type ≠ .none) : Files T h := by
  refine ⟨fun g => ?_, hf.closed, fun g hg => ?_, hf.ends, hf.page⟩
  · have := hf.ref g
    simp only [List.count_cons] at *
    omega
  · by_cases hgf : g = f
    · rw [hgf]
      exact ht
    · refine hf.typed g ?_
      simp only [count_cons_of_ne hgf]
      exact hg

theorem unsettle (hf : Files T h) (f : FileId) :
    Files T { h with files := f :: h.files, fowed := f :: h.fowed } := by
  refine ⟨fun g => ?_, hf.closed, fun g hg => hf.typed g ?_, hf.ends, hf.page⟩
  · have := hf.ref g
    simp only [List.count_cons] at *
    omega
  · exact List.count_le_count_cons.trans_lt hg

/-- `pipeclose` by the last reference to an end of a pipe. -/
theorem closePipe (hf : Files T { h with files := f :: h.files }) (h1 : (T.ftable f).ref = 1)
    (ht : (T.ftable f).type = .pipe) {w : PipeEnds} (hw : T.pipe (T.ftable f).pipe = some w)
    {w' : PipeEnds} (hw' : w' = if (T.ftable f).writable then { w with writeopen := false }
      else { w with readopen := false }) :
    Files ((T.setFile f { T.ftable f with ref := 0, type := .none }).setPipe (T.ftable f).pipe
      (if w'.readopen = false ∧ w'.writeopen = false then none else some w')) h := by
  have hend : T.endOf f = some ((T.ftable f).pipe, (T.ftable f).writable) := if_pos ht
  refine ⟨fun g => ?_, fun g => ?_, fun g hlt => ?_, hf.ends.take hend ?_ (fun g hg => ?_) ?_,
    fun b u hb => ?_⟩
  · have hr := hf.ref g
    by_cases hg : g = f
    · subst hg
      show (if _ then _ else _ : File).ref + _ = _
      rw [if_pos rfl]
      simp only [List.count_cons_self] at hr
      simp only
      show 0 + _ = T.fds g + _
      omega
    · simp only [count_cons_of_ne hg] at hr
      show (if _ then _ else _ : File).ref + _ = _
      rw [if_neg hg]
      exact hr
  · show (if _ then _ else _ : File).ref = 0 → (if _ then _ else _ : File).type = _
    split
    · exact fun _ => rfl
    · exact hf.closed g
  · have hlt' : h.fowed.count g < T.fds g := hlt
    show (if _ then _ else _ : File).type ≠ _
    by_cases hg : g = f
    · subst hg
      have hr := hf.ref g
      simp only [List.count_cons_self] at hr
      omega
    · rw [if_neg hg]
      exact hf.typed g hlt'
  · exact endOf_setFile_self
  · exact endOf_setFile_of_ne hg
  · rintro ⟨b, e⟩
    by_cases hb : b = (T.ftable f).pipe
    · subst hb
      simp only [Tab.EndOpen, Tab.setPipe, if_true, Tab.setFile, hw]
      rw [hw']
      rcases w with ⟨r, o⟩
      cases hwr : (T.ftable f).writable <;> cases e <;> cases r <;> cases o <;> simp
    · simp [Tab.EndOpen, Tab.setPipe, Tab.setFile, hb]
  · by_cases hba : b = (T.ftable f).pipe
    · subst hba
      simp only [Tab.setPipe, if_true] at hb
      split at hb
      · cases hb
      · rename_i hopen
        rw [← Option.some.inj hb]
        cases hr : w'.readopen <;> cases ho : w'.writeopen <;> simp_all
    · simp only [Tab.setPipe, if_neg hba] at hb
      exact hf.page b u hb

/-- Two new files are the ends of a new pipe. -/
theorem openPipe (hf : Files T h) (hne : f₁ ≠ f) (hnone : T.pipe a = none)
    (h0 : (T.ftable f).ref ≠ 0) (h0₁ : (T.ftable f₁).ref ≠ 0) (ht : (T.ftable f).type = .none)
    (ht₁ : (T.ftable f₁).type = .none) (hr : v.ref = (T.ftable f).ref)
    (hr₁ : v₁.ref = (T.ftable f₁).ref) (hv : v.type = .pipe ∧ v.pipe = a ∧ v.writable = false)
    (hv₁ : v₁.type = .pipe ∧ v₁.pipe = a ∧ v₁.writable = true) :
    Files (((T.setPipe a (some ⟨true, true⟩)).setFile f v).setFile f₁ v₁) h := by
  have hclosed : ∀ e, ¬ T.EndOpen (a, e) := fun e ⟨w, hw, _⟩ => by
    rw [hnone] at hw
    cases hw
  have hends : Exact ((T.setPipe a (some ⟨true, true⟩)).setFile f v).endOf
      (fun x => x = (a, false) ∨ T.EndOpen x) := by
    refine hf.ends.put (x := f) (endOf_eq_none (by rw [ht]; decide)) (hclosed false) ?_
      (fun g hg => endOf_setFile_of_ne hg) fun _ => Iff.rfl
    rw [endOf_setFile_self, if_pos hv.1, hv.2.1, hv.2.2]
  refine ⟨fun g => ?_, fun g => ?_, fun g hlt => ?_, hends.put (x := f₁) (a := (a, true)) ?_ ?_ ?_
    (fun g hg => endOf_setFile_of_ne hg) ?_, fun b u hb => ?_⟩
  · have := hf.ref g
    by_cases hg₁ : g = f₁
    · rw [hg₁] at this ⊢
      rw [Tab.setFile_ftable_self, hr₁]
      exact this
    · rw [Tab.setFile_ftable_of_ne hg₁]
      by_cases hg : g = f
      · rw [hg] at this ⊢
        rw [Tab.setFile_ftable_self, hr]
        exact this
      · rw [Tab.setFile_ftable_of_ne hg]
        exact this
  · by_cases hg₁ : g = f₁
    · rw [hg₁, Tab.setFile_ftable_self, hr₁]
      exact fun h' => absurd h' h0₁
    · rw [Tab.setFile_ftable_of_ne hg₁]
      by_cases hg : g = f
      · rw [hg, Tab.setFile_ftable_self, hr]
        exact fun h' => absurd h' h0
      · rw [Tab.setFile_ftable_of_ne hg]
        exact hf.closed g
  · by_cases hg₁ : g = f₁
    · rw [hg₁, Tab.setFile_ftable_self, hv₁.1]
      decide
    · rw [Tab.setFile_ftable_of_ne hg₁]
      by_cases hg : g = f
      · rw [hg, Tab.setFile_ftable_self, hv.1]
        decide
      · rw [Tab.setFile_ftable_of_ne hg]
        exact hf.typed g hlt
  · rw [endOf_setFile_of_ne hne]
    exact endOf_eq_none (by rw [show (T.setPipe a (some ⟨true, true⟩)).ftable = T.ftable from rfl, ht₁]; decide)
  · rintro (e | e)
    · cases e
    · exact hclosed true e
  · rw [endOf_setFile_self, if_pos hv₁.1, hv₁.2.1, hv₁.2.2]
  · rintro ⟨b, e⟩
    by_cases hb : b = a
    · subst hb
      simp only [Tab.EndOpen, Tab.setPipe, Tab.setFile, if_true, hnone]
      cases e <;> simp
    · simp [Tab.EndOpen, Tab.setPipe, Tab.setFile, hb]
  · by_cases hba : b = a
    · simp only [Tab.setPipe, Tab.setFile, hba, if_true] at hb
      rw [← Option.some.inj hb]
      exact .inl rfl
    · simp only [Tab.setPipe, Tab.setFile, if_neg hba] at hb
      exact hf.page b u hb

end Files

end Xv6
