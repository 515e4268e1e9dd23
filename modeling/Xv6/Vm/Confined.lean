import Xv6.Vm.Copy
import Xv6.Vm.Create

/-!
# Copies are exact and confined

What `copyout`, `copyin` and `copyinstr` do from any address space, whatever the address and the
length (`copies_confined`). The frames of pages without `PTE_U`, among them the trap frame, the
trampoline and the guard page, are neither written nor read: the results are the same whatever they
hold (`Alike`).
-/

namespace Xv6.Vm

open Transfer

variable {K : Layout} {s s' : Phys} {R : Multiset ℕ} {root sz tf a n v : ℕ}
  {f : ℕ → Option UInt8} {P P' : Finset ℕ} {write : Bool}

/-! ## Frames that are not the process's to use -/

/-- The frame of the trap frame, of the trampoline or of another page without `PTE_U`. -/
def Private (m : ByteMem) (root q : ℕ) : Prop :=
  ∃ v < 2 ^ 20, (pte m root v).testBit vBit = true ∧ (pte m root v).testBit uBit = false ∧
    pte2pa (pte m root v) = q

/-- States that differ in private frames at most. -/
structure Alike (root : ℕ) (s t : Phys) : Prop where
  mem : ∀ x, ¬ Private s.mem root (pgrounddown x) → t.mem x = s.mem x
  freelist : t.freelist = s.freelist
  deny : t.deny = s.deny

section Private

variable {t : Phys} (hsp : Space K s.mem root sz tf)
  (hg : Good K s (tables s.mem root + (frames s.mem root sz tf + R)))

include hsp hg

theorem not_private {q : ℕ} (h : q ∈ s.freelist ∨ q ∈ tables s.mem root) : ¬ Private s.mem root q := by
  rintro ⟨v, hv, hval, -, rfl⟩
  have hfr := hg.frame _ (h.imp_right fun hx => Multiset.mem_add.2 (.inl hx))
  obtain hmem | htr := hsp.frame_cases hv hval
  · have hin : pte2pa (pte s.mem root v) ∈ frames s.mem root sz tf + R := Multiset.mem_add.2 (.inl hmem)
    obtain h | h := h
    · exact hg.not_free (Multiset.mem_add.2 (.inr hin)) h
    · exact Multiset.disjoint_left.1 (Multiset.nodup_add.1 hg.held_nodup).2.2 h hin
  · have h₁ := hfr.low
    have h₂ := K.tramp_le
    simp only [pgsize] at h₂
    omega

/-- Private frames are not written. -/
theorem Copied.sealed (h : Copied K root sz tf R P f s s') {x : ℕ}
    (hx : Private s.mem root (pgrounddown x)) : s'.mem x = s.mem x := by
  refine h.kept x (fun hF => not_private hsp hg (.inl hF) hx) (fun hT => not_private hsp hg (.inr hT) hx)
    fun v _ hv hu => ?_
  obtain ⟨w, hw, hval, huser, he⟩ := hx
  rw [← he]
  refine frame_ne hsp hg hv hu hw hval fun e => ?_
  rw [e, hu.user] at huser
  cases huser

variable (h : Alike root s t)

include h

theorem Alike.quiet {x : ℕ} (hx : pgrounddown x ∈ tables s.mem root) : t.mem x = s.mem x :=
  h.mem x (not_private hsp hg (.inr hx))

theorem Alike.word (hv : v < 2 ^ 20) : pte t.mem root v = pte s.mem root v :=
  pte_congr hg.apart.aligned (fun _ hx => h.quiet hsp hg hx) hv

theorem Alike.space : Space K t.mem root sz tf :=
  hsp.congr hg.apart.aligned fun _ hx => h.quiet hsp hg hx

theorem Alike.good : Good K t (tables t.mem root + (frames t.mem root sz tf + R)) := by
  rw [tables_congr hg.apart.aligned fun _ hx => h.quiet hsp hg hx,
    hsp.frames_congr hg.apart.aligned fun _ hx => h.quiet hsp hg hx]
  exact hg.congr h.freelist

theorem Alike.user (hv : v < 2 ^ 20) : UserPage t.mem root v ↔ UserPage s.mem root v := by
  have hw := h.word hsp hg hv
  exact ⟨fun hu => ⟨hw ▸ hu.valid, hw ▸ hu.user⟩,
    fun hu => ⟨hw.symm ▸ hu.valid, hw.symm ▸ hu.user⟩⟩

theorem Alike.symm : Alike root t s := by
  refine ⟨fun x hx => (h.mem x fun hp => hx ?_).symm, h.freelist.symm, h.deny.symm⟩
  obtain ⟨v, hv, h₁, h₂, h₃⟩ := hp
  have hw := h.word hsp hg hv
  exact ⟨v, hv, hw.symm ▸ h₁, hw.symm ▸ h₂, hw.symm ▸ h₃⟩

/-- Both look the same where the process may look. -/
theorem Alike.looks {b : ℕ} (hb : b < 2 ^ 32)
    (hu : (pte s.mem root (b / pgsize)).testBit vBit = true → UserPage s.mem root (b / pgsize)) :
    seen t.mem root sz b = seen s.mem root sz b := by
  have hpage : b / pgsize < 2 ^ 20 := by
    simp only [pgsize]
    omega
  unfold seen
  rw [h.word hsp hg hpage]
  by_cases hval : (pte s.mem root (b / pgsize)).testBit vBit = true
  · rw [if_pos hval, if_pos hval, h.mem]
    rw [pgrounddown_pte2pa]
    rintro ⟨w, hw, h₁, h₂, h₃⟩
    refine frame_ne hsp hg hpage (hu hval) hw h₁ (fun e => ?_) h₃
    rw [e, (hu hval).user] at h₂
    cases h₂
  · rw [if_neg hval, if_neg hval]

theorem Alike.reach (ha : a < 2 ^ 32) (hr : Reach write s root sz a n) : Reach write t root sz a n := by
  have hpg := hsp.pgs_le_num
  have hlt : ∀ b, a ≤ b → b < a + n → b / pgsize < 2 ^ 20 := fun b h₁ h₂ => by
    have := hsp.reach_lt ha hr.usable h₁ h₂
    omega
  refine ⟨fun b h₁ h₂ => ?_, ?_⟩
  · have hus := hr.usable b h₁ h₂
    unfold Usable at hus ⊢
    rw [h.word hsp hg (hlt b h₁ h₂)]
    exact hus
  · have hcalls : calls t.mem root (pagesOf a n) = calls s.mem root (pagesOf a n) := by
      unfold calls
      congr 2
      · refine Finset.filter_congr fun u hu => ?_
        obtain ⟨b, h₁, h₂, rfl⟩ := mem_pagesOf.1 hu
        rw [h.word hsp hg (hlt b h₁ h₂)]
      · refine Finset.filter_congr fun i hi => ?_
        obtain ⟨u, hu, rfl⟩ := Finset.mem_image.1 hi
        obtain ⟨b, h₁, h₂, rfl⟩ := mem_pagesOf.1 hu
        rw [dir_congr' hg.apart.aligned (fun _ hx => h.quiet hsp hg hx)
          (by have := hlt b h₁ h₂; omega)]
    have hav := hr.avail
    rw [← hcalls] at hav
    exact ⟨by rw [h.freelist]; exact hav.1, by rw [h.deny]; exact hav.2⟩

end Private

theorem calls_mono {m : ByteMem} (h : P ⊆ P') : calls m root P ≤ calls m root P' :=
  Nat.add_le_add (Finset.card_le_card (Finset.filter_subset_filter _ h))
    (Finset.card_le_card (Finset.filter_subset_filter _ (Finset.image_subset_image h)))

theorem Reach.mono {k : ℕ} (h : Reach write s root sz a n) (hle : k ≤ n) : Reach write s root sz a k := by
  refine ⟨fun b h₁ h₂ => h.usable b h₁ (by omega), h.avail.mono (calls_mono fun v hv => ?_)⟩
  obtain ⟨b, h₁, h₂, rfl⟩ := mem_pagesOf.1 hv
  exact mem_pagesOf.2 ⟨b, h₁, by omega, rfl⟩

theorem Extent.full_iff {len : ℕ} (h : Extent write s root sz a len n) :
    n = len ↔ Reach write s root sz a len := by
  refine ⟨fun he => he ▸ h.reach, fun hr => ?_⟩
  by_contra hne
  have hle := h.le
  exact h.stop (by omega) (hr.mono (by omega))

/-- How far a copy gets is the same in both states. -/
theorem Alike.extent_eq {t : Phys} {len n' : ℕ} (hsp : Space K s.mem root sz tf)
    (hg : Good K s (tables s.mem root + (frames s.mem root sz tf + R))) (h : Alike root s t)
    (ha : a < 2 ^ 32) (he : Extent write s root sz a len n) (he' : Extent write t root sz a len n') :
    n' = n := by
  have hle := he.le
  have hle' := he'.le
  by_contra hne
  obtain hlt | hlt := Nat.lt_or_gt_of_ne hne
  · exact he'.stop (by omega) ((h.reach hsp hg ha he.reach).mono (by omega))
  · refine he.stop (by omega) (Reach.mono ?_ (show n + 1 ≤ n' by omega))
    exact (h.symm hsp hg).reach (h.space hsp hg) (h.good hsp hg) ha he'.reach

/-! ## The copies as a whole -/

/-- What `copyout` does. -/
structure CopiedOut (K : Layout) (root sz tf : ℕ) (R : Multiset ℕ) (a : ℕ) (src : List UInt8)
    (s : Phys) (r : Bool) (s' : Phys) : Prop where
  success : r = true ↔ Reach true s root sz a src.length
  bytes : ∃ n ≤ src.length, (r = true → n = src.length) ∧
    Copied K root sz tf R (pagesOf a n) (put a (src.take n) (seen s.mem root sz)) s s'
  sealed : ∀ x, Private s.mem root (pgrounddown x) → s'.mem x = s.mem x

/-- What `copyin` does. -/
structure CopiedIn (K : Layout) (root sz tf : ℕ) (R : Multiset ℕ) (a len : ℕ) (s : Phys)
    (r : Bool × List UInt8) (s' : Phys) : Prop where
  success : r.1 = true ↔ Reach false s root sz a len
  bytes : r.2.length ≤ len ∧ (r.1 = true → r.2.length = len) ∧ Shows s.mem root sz a r.2 ∧
    Copied K root sz tf R (pagesOf a r.2.length) (seen s.mem root sz) s s'
  sealed : ∀ x, Private s.mem root (pgrounddown x) → s'.mem x = s.mem x

/-- What `copyinstr` does. -/
structure CopiedStr (root sz a max : ℕ) (s : Phys) (r : Bool × List UInt8) : Prop where
  success : r.1 = true ↔ ∃ k < max, (∀ j ≤ k, UserPage s.mem root ((a + j) / pgsize)) ∧
    seen s.mem root sz (a + k) = some 0
  bytes : r.2.length ≤ max ∧ Shows s.mem root sz a r.2 ∧
    ∀ i < r.2.length, UserPage s.mem root ((a + i) / pgsize)
  string : r.1 = true → ∃ l, r.2 = l ++ [0] ∧ 0 ∉ l

theorem turns_enough : 2 ^ 20 < turns + a / pgsize :=
  Nat.lt_of_lt_of_le (by decide) (Nat.le_add_right turns _)

section Copies

variable (hsp : Space K s.mem root sz tf)
  (hg : Good K s (tables s.mem root + (frames s.mem root sz tf + R))) (ha : a < 2 ^ 32)

include hsp hg ha

theorem copyout_ends (src : List UInt8) : ∃ n s',
    copyout K ⟨sz, root⟩ root a src s = .ok (decide (n = src.length), s') ∧
      Extent true s root sz a src.length n ∧
      Copied K root sz tf R (pagesOf a n) (put a (src.take n) (seen s.mem root sz)) s s' := by
  obtain ⟨r, s', hrun, n, hext, rfl, hc, -⟩ :=
    (copyoutLoop_ends (E := fun _ => False) hsp hg ha turns_enough).returns
  exact ⟨n, s', hrun, hext, hc⟩

/-- `copyout` to addresses that can all be written: what lies behind them still can. -/
theorem copyout_all {src : List UInt8} (hr : Reach true s root sz a src.length) : ∃ s',
    copyout K ⟨sz, root⟩ root a src s = .ok (true, s') ∧
      Copied K root sz tf R (pagesOf a src.length) (put a src (seen s.mem root sz)) s s' ∧
      ∀ j, Reach true s root sz a (src.length + j) → Reach true s' root sz (a + src.length) j := by
  obtain ⟨r, s', hrun, n, hext, rfl, hc, htail⟩ :=
    (copyoutLoop_ends (E := fun _ => False) hsp hg ha turns_enough).returns
  obtain rfl := hext.full_iff.2 hr
  rw [List.take_length] at hc
  rw [decide_eq_true rfl] at hrun
  exact ⟨s', hrun, hc, (htail rfl).2⟩

theorem copyin_ends (len : ℕ) : ∃ l s',
    copyin K ⟨sz, root⟩ root a len s = .ok ((decide (l.length = len), l), s') ∧
      Extent false s root sz a len l.length ∧ Shows s.mem root sz a l ∧
      Copied K root sz tf R (pagesOf a l.length) (seen s.mem root sz) s s' := by
  have hends : Det.Ends (fun _ => False) (copyin K ⟨sz, root⟩ root a len) s _ :=
    copyinLoop_ends hsp hg ha turns_enough
  obtain ⟨r, s', hrun, l, hext, rfl, hshow, hc⟩ := hends.returns
  exact ⟨l, s', hrun, hext, hshow, hc⟩

theorem copyinstr_ends (max : ℕ) : ∃ r l, copyinstr root a max s = .ok ((r, l), s) ∧ Cut r l ∧
    l.length ≤ max ∧ Shows s.mem root sz a l ∧
    (∀ i < l.length, UserPage s.mem root ((a + i) / pgsize)) ∧
    (r = false → l.length < max → ¬ UserPage s.mem root ((a + l.length) / pgsize)) := by
  have hends : Det.Ends (fun _ => False) (copyinstr root a max) s _ :=
    copyinstrLoop_ends hsp hg ha turns_enough
  obtain ⟨⟨r, l'⟩, s', hrun, rfl, l, hl, h⟩ := hends.returns
  obtain rfl : l' = l := hl
  exact ⟨r, l', hrun, h⟩

/-- `copyinstr` succeeds if there is a NUL to be found. -/
theorem copyinstr_spec (max : ℕ) : ∃ r, copyinstr root a max s = .ok (r, s) ∧
    CopiedStr root sz a max s r := by
  obtain ⟨r, l, hrun, hcut, hle, hshow, hpages, hstop⟩ := copyinstr_ends hsp hg ha max
  refine ⟨(r, l), hrun, ⟨⟨fun hr => ?_, fun hnul => ?_⟩, ⟨hle, hshow, hpages⟩, fun hr => ?_⟩⟩
  · obtain rfl : r = true := hr
    obtain ⟨l', rfl, -⟩ := hcut
    rw [List.length_append, List.length_singleton] at hle hpages
    refine ⟨l'.length, by omega, fun j hj => hpages j (by omega), ?_⟩
    rw [hshow l'.length (by simp), List.getElem?_append_right (Nat.le_refl _), Nat.sub_self]
    rfl
  · -- without a NUL the copy has stopped at a page that is not there, or at `max`
    obtain ⟨k, hk, hus, hz⟩ := hnul
    by_contra hr
    obtain rfl : r = false := Bool.eq_false_iff.2 hr
    by_cases hlt : k < l.length
    · have hin : l[k]? = some 0 := by rw [← hshow k hlt, hz]
      exact hcut (List.mem_of_getElem? hin)
    · exact hstop rfl (by omega) (hus _ (by omega))
  · obtain rfl : r = true := hr
    exact hcut

end Copies

/-- A list that is cut is no shorter than another with the same bytes, unless it ends early. -/
theorem Cut.length_le {r r' : Bool} {l l' : List UInt8} (h : Cut r l) (h' : Cut r' l')
    (hl : ∀ i < l.length, i < l'.length → l[i]? = l'[i]?)
    (hstop : r = false → l'.length ≤ l.length) : l'.length ≤ l.length := by
  cases r with
  | false => exact hstop rfl
  | true =>
    obtain ⟨k, rfl, -⟩ := h
    by_contra hlt
    rw [List.length_append, List.length_singleton] at hlt hl
    have hz : l'[k.length]? = some 0 := by
      rw [← hl k.length (by omega) (by omega), List.getElem?_append_right (Nat.le_refl _), Nat.sub_self]
      rfl
    cases r' with
    | false => exact h' (List.mem_of_getElem? hz)
    | true =>
      obtain ⟨k', rfl, hk'⟩ := h'
      rw [List.length_append, List.length_singleton] at hlt
      rw [List.getElem?_append_left (by omega)] at hz
      exact hk' (List.mem_of_getElem? hz)

theorem Cut.found_iff {r : Bool} {l : List UInt8} (h : Cut r l) : r = true ↔ 0 ∈ l := by
  cases r with
  | false => exact ⟨nofun, fun hx => absurd hx h⟩
  | true =>
    obtain ⟨k, rfl, -⟩ := h
    simp

section Alike

variable {t : Phys} {l l' : List UInt8} (hsp : Space K s.mem root sz tf)
  (hg : Good K s (tables s.mem root + (frames s.mem root sz tf + R))) (h : Alike root s t)
  (ha : a < 2 ^ 32)

include hsp hg h ha

/-- What is shown in both states is the same. -/
theorem Alike.shows_eq (hus : ∀ b, a ≤ b → b < a + l.length → Usable false s.mem root sz (b / pgsize))
    (hl : Shows s.mem root sz a l) (hl' : Shows t.mem root sz a l') {i : ℕ} (hi : i < l.length)
    (hi' : i < l'.length) : l[i]? = l'[i]? := by
  have hpg := hsp.pgs_le_num
  have hlt := hsp.reach_lt ha hus (b := a + i) (by omega) (by omega)
  rw [← hl i hi, ← hl' i hi']
  refine (h.looks hsp hg (by simp only [pgsize] at *; omega) fun hval => ⟨hval, ?_⟩).symm
  have hu := hus (a + i) (by omega) (by omega)
  unfold Usable at hu
  rw [if_pos hval] at hu
  exact hu.1

omit hg h in
/-- Pages of the process have numbers. -/
theorem users_lt (hu : ∀ i < n, UserPage s.mem root ((a + i) / pgsize)) {i : ℕ} (hi : i < n) :
    (∀ b, a ≤ b → b < a + n → Usable false s.mem root sz (b / pgsize)) ∧ (a + i) / pgsize < 2 ^ 20 := by
  have hus : ∀ b, a ≤ b → b < a + n → Usable false s.mem root sz (b / pgsize) := fun b h₁ h₂ => by
    have hb := hu (b - a) (by omega)
    rw [show a + (b - a) = b by omega] at hb
    unfold Usable
    rw [if_pos hb.valid]
    exact ⟨hb.user, nofun⟩
  have hpg := hsp.pgs_le_num
  have hlt := hsp.reach_lt ha hus (b := a + i) (by omega) (by omega)
  exact ⟨hus, by omega⟩

/-- A string of one state is no longer than that of the other. -/
theorem Alike.string_le {r r' : Bool} {max : ℕ} (hcut : Cut r l) (hcut' : Cut r' l')
    (hle : l'.length ≤ max) (hshow : Shows s.mem root sz a l) (hshow' : Shows t.mem root sz a l')
    (hu : ∀ i < l.length, UserPage s.mem root ((a + i) / pgsize))
    (hu' : ∀ i < l'.length, UserPage t.mem root ((a + i) / pgsize))
    (hstop : r = false → l.length < max → ¬ UserPage s.mem root ((a + l.length) / pgsize)) :
    l'.length ≤ l.length := by
  refine hcut.length_le hcut' (fun i hi hi' => ?_) fun hr => ?_
  · exact h.shows_eq hsp hg ha (users_lt hsp ha hu hi).1 hshow hshow' hi hi'
  · by_contra hlt
    have hi : l.length < l'.length := by omega
    have hpage := (users_lt (h.space hsp hg) ha hu' hi).2
    exact hstop hr (by omega) ((h.user hsp hg hpage).1 (hu' _ hi))

theorem copyinstr_alike (max : ℕ) : ∃ r, copyinstr root a max s = .ok (r, s) ∧
    copyinstr root a max t = .ok (r, t) := by
  obtain ⟨r, l, hrun, hcut, hle, hshow, hu, hstop⟩ := copyinstr_ends hsp hg ha max
  have hsp' := h.space hsp hg
  have hg' := h.good hsp hg
  obtain ⟨r', l', hrun', hcut', hle', hshow', hu', hstop'⟩ := copyinstr_ends hsp' hg' ha max
  have h₁ := h.string_le hsp hg ha hcut hcut' hle' hshow hshow' hu hu' hstop
  have h₂ := (h.symm hsp hg).string_le hsp' hg' ha hcut' hcut hle hshow' hshow hu' hu hstop'
  have hl : l' = l := List.ext_getElem? fun i => by
    by_cases hi : i < l.length
    · exact (h.shows_eq hsp hg ha (users_lt hsp ha hu hi).1 hshow hshow' hi (by omega)).symm
    · rw [List.getElem?_eq_none (by omega), List.getElem?_eq_none (by omega)]
  have hr : r' = r := Bool.eq_iff_iff.2 (by rw [hcut.found_iff, hcut'.found_iff, hl])
  exact ⟨(r, l), hrun, by rw [hrun', hr, hl]⟩

end Alike

/-- **User copies are exact and confined.** In the address space of the current process, for every
address and length: `copyout` and `copyin` return, and they succeed just when every page of the range
may be used or can be mapped; what they copy is a part of the range from its beginning on, all of it
on success, and nothing else changes for the process; `copyinstr` succeeds just when there is a NUL
within `max` bytes before the first page that is not a page of the process, and the bytes are then the
string with its NUL. The frames of pages without `PTE_U` are not written, and the results do not
depend on what they hold. -/
theorem copies_confined (hsp : Space K s.mem root sz tf)
    (hg : Good K s (tables s.mem root + (frames s.mem root sz tf + R))) :
    (∀ a < 2 ^ 32, ∀ src, ∃ r s', copyout K ⟨sz, root⟩ root a src s = .ok (r, s') ∧
      CopiedOut K root sz tf R a src s r s' ∧
      ∀ t, Alike root s t → ∃ t', copyout K ⟨sz, root⟩ root a src t = .ok (r, t') ∧
        ∀ b < 2 ^ 32, ((pte s.mem root (b / pgsize)).testBit vBit = true →
          UserPage s.mem root (b / pgsize)) → seen t'.mem root sz b = seen s'.mem root sz b) ∧
    (∀ a < 2 ^ 32, ∀ len, ∃ r s', copyin K ⟨sz, root⟩ root a len s = .ok (r, s') ∧
      CopiedIn K root sz tf R a len s r s' ∧
      ∀ t, Alike root s t → ∃ t', copyin K ⟨sz, root⟩ root a len t = .ok (r, t')) ∧
    ∀ a < 2 ^ 32, ∀ max, ∃ r, copyinstr root a max s = .ok (r, s) ∧ CopiedStr root sz a max s r ∧
      ∀ t, Alike root s t → copyinstr root a max t = .ok (r, t) := by
  refine ⟨fun a ha src => ?_, fun a ha len => ?_, fun a ha max => ?_⟩
  · obtain ⟨n, s', hrun, hext, hc⟩ := copyout_ends hsp hg ha src
    refine ⟨_, s', hrun, ⟨?_, ⟨n, hext.le, of_decide_eq_true, hc⟩, fun x hx => hc.sealed hsp hg hx⟩,
      fun t ht => ?_⟩
    · rw [decide_eq_true_iff]
      exact hext.full_iff
    · obtain ⟨n', t', hrun', hext', hc'⟩ :=
        copyout_ends (ht.space hsp hg) (ht.good hsp hg) ha src
      obtain rfl := ht.extent_eq hsp hg ha hext hext'
      refine ⟨t', hrun', fun b hb hu => ?_⟩
      rw [hc'.looks b hb, hc.looks b hb]
      exact put_congr (ht.looks hsp hg hb hu)
  · obtain ⟨l, s', hrun, hext, hshow, hc⟩ := copyin_ends hsp hg ha len
    refine ⟨_, s', hrun, ⟨?_, ⟨hext.le, of_decide_eq_true, hshow, hc⟩,
      fun x hx => hc.sealed hsp hg hx⟩, fun t ht => ?_⟩
    · rw [decide_eq_true_iff]
      exact hext.full_iff
    · obtain ⟨l', t', hrun', hext', hshow', -⟩ :=
        copyin_ends (ht.space hsp hg) (ht.good hsp hg) ha len
      have hlen := ht.extent_eq hsp hg ha hext hext'
      have hl : l' = l := List.ext_getElem? fun i => by
        by_cases hi : i < l.length
        · exact (ht.shows_eq hsp hg ha hext.reach.usable hshow hshow' hi (by omega)).symm
        · rw [List.getElem?_eq_none (by omega), List.getElem?_eq_none (by omega)]
      exact ⟨t', hl ▸ hrun'⟩
  · obtain ⟨r, hrun, hspec⟩ := copyinstr_spec hsp hg ha max
    refine ⟨r, hrun, hspec, fun t ht => ?_⟩
    obtain ⟨r', h₁, h₂⟩ := copyinstr_alike hsp hg ht ha max
    rw [hrun] at h₁
    cases h₁
    exact h₂

theorem copies_confined_small : ∃ (s : Phys) (root : ℕ), Space smallLayout s.mem root 0x1000 0x2000 ∧
    ∃ r s', copyout smallLayout ⟨0x1000, root⟩ root 0x10 [1, 2] s = .ok (r, s') ∧
      CopiedOut smallLayout root 0x1000 0x2000 0 0x10 [1, 2] s r s' := by
  obtain ⟨s, root, hsp, hg⟩ := space_small
  obtain ⟨r, s', hrun, hspec, -⟩ := (copies_confined hsp hg).1 0x10 (by decide) [1, 2]
  exact ⟨s, root, hsp, r, s', hrun, hspec⟩

end Xv6.Vm
