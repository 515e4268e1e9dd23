import Xv6.Vm.Create

/-!
# `sbrk`

`growproc` and `sys_sbrk` from any address space (`growproc_ends`, `sysSbrk_ends`): they grow it by
pages of zeros, by a larger size alone, or shrink it, and when they fail nothing has changed but that
the page table may have got pages for itself (`sbrk_undone`).
-/

namespace Xv6.Vm

open Transfer

variable {α : Type} {K : Layout} {E : Halt → Prop} {s s' : Mach} {R : Multiset ℕ}
  {root sz tf a v : ℕ} {me : ProcId} {n t : ℤ}

theorem onPhys_ends {p : PhysM α} {Q : α → Mach → Prop}
    (h : Det.Ends E p s.phys fun a ph => Q a { s with phys := ph }) : Det.Ends E (onPhys p) s Q := by
  unfold Det.Ends onPhys at *
  cases hp : p s.phys with
  | ok r =>
    rw [hp] at h
    exact h
  | error e =>
    rw [hp] at h
    exact h

/-- The machine with other memory and another size of a process. -/
def Mach.resize (s : Mach) (me : ProcId) (ph : Phys) (sz : ℕ) : Mach :=
  { s with phys := ph, procs := Function.update s.procs me { s.procs me with sz := sz } }

theorem Mach.resize_self : s.resize me s.phys (s.procs me).sz = s := by
  unfold resize
  rw [show ({ s.procs me with sz := (s.procs me).sz } : Pcb) = s.procs me from rfl,
    Function.update_eq_self]

theorem addInt_of_nonneg {m : ℕ} (h : sz + m < 2 ^ 32) : addInt sz m = sz + m := by
  unfold addInt
  omega

theorem addInt_of_neg (hn : n < 0) (hge : -2 ^ 31 ≤ n) (hsz : sz < 2 ^ 31) :
    (addInt sz n < sz ∧ (addInt sz n : ℤ) = sz + n) ∨ sz ≤ addInt sz n := by
  unfold addInt
  omega

/-- `growproc`. -/
theorem growproc_ends {Q : Bool → Mach → Prop} (hpt : (s.procs me).pagetable = some root)
    (hsp : Space K s.phys.mem root (s.procs me).sz tf)
    (hg : Good K s.phys (tables s.phys.mem root + (frames s.phys.mem root (s.procs me).sz tf + R)))
    (hn : -2 ^ 31 ≤ n ∧ n < 2 ^ 31)
    (hfail : 0 < n → ∀ ph, Grown root s.phys ph → Q false (s.resize me ph (s.procs me).sz))
    (hgrow : ∀ (ph : Phys) (sz' : ℕ), 0 < n → (sz' : ℤ) = (s.procs me).sz + n → sz' ≤ trapframe →
      Filled K root (pgs (s.procs me).sz) (pgs sz') (pteR ||| pteU ||| pteW) s.phys ph →
      Q true (s.resize me ph sz'))
    (hshrink : ∀ (ph : Phys) (sz' : ℕ), n < 0 → (sz' : ℤ) = (s.procs me).sz + n →
      Cleared root (pgs sz') (pgs (s.procs me).sz)
        (users s.phys.mem root (pgs sz') (pgs (s.procs me).sz)) s.phys ph →
      Q true (s.resize me ph sz'))
    (hstay : n ≤ 0 → Q true s) : Det.Ends E (growproc K me n) s Q := by
  have hroot : (s.procs me).pagetable.getD 0 = root := by rw [hpt]; rfl
  have hsz := hsp.size
  simp only [trapframe, trampoline, pgsize] at hsz
  unfold growproc
  refine .bind (.of_eq rfl ?_)
  rw [hroot]
  by_cases hpos : n > 0
  · obtain ⟨k, rfl⟩ := Int.eq_ofNat_of_zero_le (Int.le_of_lt hpos)
    rw [if_pos hpos, addInt_of_nonneg (by omega)]
    by_cases hbig : (s.procs me).sz + k > trapframe
    · rw [if_pos hbig]
      refine .pure ?_
      have := hfail hpos s.phys (.refl hsp.table)
      rwa [Mach.resize_self] at this
    · rw [if_neg hbig]
      have hle := pgs_le_tfPage (Nat.le_of_not_lt hbig)
      refine .bind (onPhys_ends (uvmalloc_ends hg hsp.table (Nat.le_add_right _ _)
        (by simp only [maxva]; omega) (by omega) (fun v h₁ h₂ _ => ⟨?_, hsp.unmapped h₁ (by omega)⟩)
        (by decide) (fun ph hf => ?_) fun ph hgr => ?_))
      · simp only [tfPage, trapframe, trampoline, pgsize] at hle
        omega
      · rw [if_neg (by omega)]
        exact .bind (.of_eq rfl (.pure
          (hgrow ph ((s.procs me).sz + k) hpos (by omega) (Nat.le_of_not_lt hbig) hf)))
      · rw [if_pos rfl]
        refine .pure ?_
        have := hfail hpos ph hgr
        unfold Mach.resize at this
        rwa [show ({ s.procs me with sz := (s.procs me).sz } : Pcb) = s.procs me from rfl,
          Function.update_eq_self] at this
  · rw [if_neg hpos]
    have hstay' : Q true (s.resize me s.phys (s.procs me).sz) := by
      rw [Mach.resize_self]
      exact hstay (by omega)
    by_cases hneg : n < 0
    · rw [if_pos hneg]
      obtain ⟨hlt, heq⟩ | hge := addInt_of_neg hneg hn.1 (show (s.procs me).sz < 2 ^ 31 by omega)
      · have hmono := pgs_mono (Nat.le_of_lt hlt)
        have hg' : Good K s.phys (tables s.phys.mem root +
            (users s.phys.mem root (pgs (addInt (s.procs me).sz n)) (pgs (s.procs me).sz) +
              (users s.phys.mem root 0 (pgs (addInt (s.procs me).sz n)) + {tf} + R))) := by
          refine hg.cast ?_
          unfold frames
          rw [users_split (Nat.zero_le _) hmono]
          abel
        refine .bind (onPhys_ends (.mono (uvmdealloc_ends (Nat.le_of_lt hlt)
          (by simp only [maxva]; omega) hg' hsp.table) fun r ph hc => ?_))
        rw [hc.1]
        exact .bind (.of_eq rfl (.pure (hshrink ph _ hneg heq hc.2)))
      · have hrun : uvmdealloc K root (s.procs me).sz (addInt (s.procs me).sz n) s.phys =
            .ok ((s.procs me).sz, s.phys) := by
          unfold uvmdealloc
          rw [if_pos hge]
          rfl
        exact .bind (onPhys_ends (.of_eq hrun (.bind (.of_eq rfl (.pure hstay')))))
    · rw [if_neg hneg]
      exact .bind (.of_eq rfl (.pure hstay'))

/-! ## Success and failure -/

/-- Nothing has changed but that the table may have got pages for itself. -/
structure Undone (root : ℕ) (s s' : Mach) : Prop where
  procs : s'.procs = s.procs
  leaf : ∀ v < 2 ^ 20, pte s'.phys.mem root v = pte s.phys.mem root v
  bytes : ∀ a < 2 ^ 32, byteAt s'.phys.mem root a = byteAt s.phys.mem root a
  frames : ∃ T, tables s'.phys.mem root = tables s.phys.mem root + T ∧
    (s.phys.freelist : Multiset ℕ) = s'.phys.freelist + T

/-- The break has moved by `n`, and what is new is zero. -/
structure Grew (me : ProcId) (root : ℕ) (n : ℤ) (s s' : Mach) : Prop where
  sz : ((s'.procs me).sz : ℤ) = (s.procs me).sz + n
  others : ∀ q, s'.procs q = if q = me then { s.procs me with sz := (s'.procs me).sz } else s.procs q
  leaf : ∀ v < 2 ^ 20, (pte s.phys.mem root v).testBit vBit = true →
    pte s'.phys.mem root v = pte s.phys.mem root v
  old : ∀ a < 2 ^ 32, ∀ b, byteAt s.phys.mem root a = some b → byteAt s'.phys.mem root a = some b
  new : ∀ a < 2 ^ 32, byteAt s.phys.mem root a = none →
    byteAt s'.phys.mem root a = none ∨ byteAt s'.phys.mem root a = some 0

theorem pageNum_lt (h : a < 2 ^ 32) : a / pgsize < 2 ^ 20 := by
  simp only [pgsize]
  omega

theorem Grown.undone {ph : Phys} (hsp : Space K s.phys.mem root (s.procs me).sz tf)
    (hg : Good K s.phys (tables s.phys.mem root + (frames s.phys.mem root (s.procs me).sz tf + R)))
    (h : Grown root s.phys ph) : Undone root s (s.resize me ph (s.procs me).sz) := by
  refine ⟨?_, h.words, fun a ha => hsp.byteAt_kept hg h.moves (pageNum_lt ha) (h.words _ (pageNum_lt ha)), ?_⟩
  · have h : (s.resize me s.phys (s.procs me).sz).procs = s.procs := by rw [Mach.resize_self]
    exact h
  · obtain ⟨T, hT⟩ := Multiset.le_iff_exists_add.1 h.tables_le
    refine ⟨T, hT, ?_⟩
    have htot := h.moves.total
    rw [hT, add_comm (tables _ _) T, ← add_assoc] at htot
    exact (add_right_cancel htot).symm

/-- Only the size changes. -/
theorem grew_size {sz' : ℕ} (hsz : (sz' : ℤ) = (s.procs me).sz + n) :
    Grew me root n s (s.resize me s.phys sz') := by
  have hself : (s.resize me s.phys sz').procs me = { s.procs me with sz := sz' } :=
    Function.update_self _ _ _
  refine ⟨by rw [hself]; exact hsz, fun q => ?_, fun _ _ _ => rfl, fun _ _ _ h => h,
    fun _ _ h => .inl h⟩
  rw [hself]
  unfold Mach.resize
  simp only [Function.update_apply]

theorem Filled.grew {ph : Phys} {sz' : ℕ} (hsp : Space K s.phys.mem root (s.procs me).sz tf)
    (hg : Good K s.phys (tables s.phys.mem root + (frames s.phys.mem root (s.procs me).sz tf + R)))
    (hsz : (sz' : ℤ) = (s.procs me).sz + n) (hle : sz' ≤ trapframe)
    (h : Filled K root (pgs (s.procs me).sz) (pgs sz') (pteR ||| pteU ||| pteW) s.phys ph) :
    Grew me root n s (s.resize me ph sz') := by
  have hself : (s.resize me ph sz').procs me = { s.procs me with sz := sz' } :=
    Function.update_self _ _ _
  have htf := pgs_le_tfPage hle
  have hold : ∀ v < 2 ^ 20, (pte s.phys.mem root v).testBit vBit = true →
      pte ph.mem root v = pte s.phys.mem root v := fun v hv hval => by
    refine h.words v hv ?_
    by_contra hno
    rw [hsp.unmapped (by omega) (by omega)] at hval
    cases hval
  refine ⟨by rw [hself]; exact hsz, fun q => ?_, hold, fun a ha b hb => ?_, fun a ha hnone => ?_⟩
  · rw [hself]
    unfold Mach.resize
    simp only [Function.update_apply]
  · have hval : (pte s.phys.mem root (a / pgsize)).testBit vBit = true := by
      by_contra hno
      unfold byteAt at hb
      rw [if_neg hno] at hb
      cases hb
    rw [← hb]
    exact hsp.byteAt_kept hg h.moves (pageNum_lt ha) (hold _ (pageNum_lt ha) hval)
  · by_cases hin : pgs (s.procs me).sz ≤ a / pgsize ∧ a / pgsize < pgs sz'
    · obtain ⟨p, hp, hpte, hz⟩ := h.new _ hin.1 hin.2 _ rfl
      refine .inr ?_
      unfold byteAt Mach.resize
      simp only
      rw [hpte, entry_valid hp.aligned (by decide), if_pos rfl, pte2pa_entry hp.aligned (by decide),
        hz _ (Nat.mod_lt _ (by decide))]
    · refine .inl ?_
      have hw := h.words (a / pgsize) (pageNum_lt ha) (by omega)
      unfold byteAt Mach.resize at *
      simp only
      rw [hw]
      by_contra hno
      split at hno
      · next hval =>
        rw [if_pos hval] at hnone
        cases hnone
      · exact hno rfl

/-- **Failed growth is undone.** From any address space, `growproc` and `sys_sbrk` return; when they
fail, the size, the mappings and the memory of the process are as before, and the pages that are
gone from the free list belong to its page table; when they succeed with `n ≥ 0`, the break has moved
by `n`, what was mapped is still there, and what is new is zero. -/
theorem sbrk_undone (hpt : (s.procs me).pagetable = some root)
    (hsp : Space K s.phys.mem root (s.procs me).sz tf)
    (hg : Good K s.phys (tables s.phys.mem root + (frames s.phys.mem root (s.procs me).sz tf + R)))
    (hn : -2 ^ 31 ≤ n ∧ n < 2 ^ 31) :
    (∃ r s', growproc K me n s = .ok (r, s') ∧ (r = false → Undone root s s') ∧
      (r = true → 0 ≤ n → Grew me root n s s')) ∧
    ∃ r s', sysSbrk K me n t s = .ok (r, s') ∧ (r = none → Undone root s s') ∧
      ∀ a, r = some a → 0 ≤ n → a = (s.procs me).sz ∧ Grew me root n s s' := by
  have grow : Det.Ends (fun _ => False) (growproc K me n) s fun r s' =>
      (r = false → Undone root s s') ∧ (r = true → 0 ≤ n → Grew me root n s s') := by
    refine growproc_ends hpt hsp hg hn (fun _ ph h => ⟨fun _ => h.undone hsp hg, nofun⟩)
      (fun ph sz' _ h₁ h₂ h => ⟨nofun, fun _ _ => h.grew hsp hg h₁ h₂⟩)
      (fun ph sz' h₁ _ _ => ⟨nofun, fun _ h₂ => absurd h₂ (by omega)⟩) fun h₁ => ⟨nofun, fun _ h₂ => ?_⟩
    have h : Grew me root n s (s.resize me s.phys (s.procs me).sz) := grew_size (by omega)
    rwa [Mach.resize_self] at h
  refine ⟨grow.returns, Det.Ends.returns ?_⟩
  have hsz := hsp.size
  simp only [trapframe, trampoline, pgsize] at hsz
  unfold sysSbrk
  refine .bind (.of_eq rfl ?_)
  by_cases hpath : t = sbrkEager ∨ n < 0
  · rw [if_pos hpath]
    refine .bind (.mono grow fun r s' h => ?_)
    cases r with
    | false => exact .pure ⟨fun _ => h.1 rfl, nofun⟩
    | true => exact .pure ⟨nofun, fun a ha h0 => ⟨(Option.some.inj ha).symm, h.2 rfl h0⟩⟩
  · rw [if_neg hpath]
    obtain ⟨k, rfl⟩ := Int.eq_ofNat_of_zero_le (show 0 ≤ n by omega)
    have hself : Undone root s s := by
      have h : Undone root s (s.resize me s.phys (s.procs me).sz) := (Grown.refl hsp.table).undone hsp hg
      rwa [Mach.resize_self] at h
    rw [addInt_of_nonneg (by omega), if_neg (by omega)]
    by_cases hbig : (s.procs me).sz + k > trapframe
    · rw [if_pos hbig]
      exact .pure ⟨fun _ => hself, nofun⟩
    · rw [if_neg hbig]
      exact .bind (.of_eq rfl (.pure ⟨nofun, fun a ha _ =>
        ⟨(Option.some.inj ha).symm, grew_size (by rw [addInt_of_nonneg (by omega)]; omega)⟩⟩))

theorem sbrk_undone_small : ∃ (s : Mach) (root : ℕ), Space smallLayout s.phys.mem root 0x1000 0x2000 ∧
    (∃ r s', growproc smallLayout 0 4096 s = .ok (r, s') ∧ (r = false → Undone root s s') ∧
      (r = true → (0 : ℤ) ≤ 4096 → Grew 0 root 4096 s s')) ∧
    ∃ r s', sysSbrk smallLayout 0 4096 sbrkEager s = .ok (r, s') ∧ (r = none → Undone root s s') ∧
      ∀ a, r = some a → (0 : ℤ) ≤ 4096 → a = (s.procs 0).sz ∧ Grew 0 root 4096 s s' := by
  obtain ⟨ph, root, hsp, hg⟩ := space_small
  let s : Mach := ⟨ph, fun _ => { Pcb.blank with sz := 0x1000, pagetable := some root, trapframe := some 0x2000 }, 1⟩
  exact ⟨s, root, hsp, sbrk_undone (s := s) (n := 4096) (t := sbrkEager) rfl hsp hg ⟨by decide, by decide⟩⟩

end Xv6.Vm
