import Xv6.Sys.Exec
import Xv6.Vm.Image

/-!
# The stack of a new image

The arguments of a program at the end of its image: the strings, each on a multiple of 16, and below
them the array of pointers to them. `argPtrs` and `blockSp` say where they are, as long as they fit
in the page of the stack, and `Img.withArgs` is the image with them. The code, which counts in 32-bit
numbers and tests the stack pointer after it has moved it, gets there or finds that they do not fit
(`pushStack_ends`).
-/

namespace Xv6.Vm

open Transfer

/-! ## Where the arguments are -/

/-- The stack pointer with `n` bytes more on the stack. -/
def argPush (sp n : ℕ) : ℕ := (sp - n) / 16 * 16

/-- The stack pointer below the strings. -/
def argSp : ℕ → List (List UInt8) → ℕ
  | sp, [] => sp
  | sp, arg :: rest => argSp (argPush sp (arg.length + 1)) rest

/-- Where the strings are. -/
def argPtrs : ℕ → List (List UInt8) → List ℕ
  | _, [] => []
  | sp, arg :: rest => argPush sp (arg.length + 1) :: argPtrs (argPush sp (arg.length + 1)) rest

/-- Where the array of pointers is. -/
def blockSp (sz : ℕ) (argv : List (List UInt8)) : ℕ := argPush (argSp sz argv) (4 * (argv.length + 1))

/-- The arguments fit in the page of the stack. -/
def ArgsFit (sz : ℕ) (argv : List (List UInt8)) : Prop := sz - userstack * pgsize ≤ blockSp sz argv

/-- An image with the strings. -/
def Img.withStrings : Img → ℕ → List (List UInt8) → Img
  | g, _, [] => g
  | g, sp, arg :: rest =>
    (g.load (argPush sp (arg.length + 1)) (arg ++ [0])).withStrings (argPush sp (arg.length + 1)) rest

/-- The array of pointers. -/
def argBlock (sz : ℕ) (argv : List (List UInt8)) : List UInt8 :=
  (argPtrs sz argv ++ [0]).flatMap wordBytes

/-- An image with its arguments. -/
def Img.withArgs (g : Img) (argv : List (List UInt8)) : Img :=
  (g.withStrings g.sz argv).load (blockSp g.sz argv) (argBlock g.sz argv)

/-- The image with the guard page and the stack, which is empty. -/
def Img.withStack (g : Img) : Img :=
  (g.grow (pgsize * (pgs g.sz + userstack + 1)) (pteR ||| pteU ||| pteW)).guard (pgs g.sz)

variable {K : Layout} {E : Halt → Prop} {s₀ s : Phys} {R : Multiset ℕ} {g : Img} {self : Self}
  {argv : List (List UInt8)} {root tf v sp : ℕ}

theorem argPush_le (sp n : ℕ) : argPush sp n ≤ sp - n := by
  unfold argPush
  omega

theorem argSp_le : argSp sp argv ≤ sp := by
  induction argv generalizing sp with
  | nil => exact Nat.le_refl _
  | cons arg rest ih =>
    have hpush := argPush_le sp (arg.length + 1)
    have hrest : argSp (argPush sp (arg.length + 1)) rest ≤ argPush sp (arg.length + 1) := ih
    rw [argSp]
    omega

theorem length_argPtrs : (argPtrs sp argv).length = argv.length := by
  induction argv generalizing sp with
  | nil => rfl
  | cons arg rest ih => rw [argPtrs, List.length_cons, ih, List.length_cons]

theorem length_words (l : List ℕ) : (l.flatMap wordBytes).length = 4 * l.length := by
  induction l with
  | nil => rfl
  | cons a l ih =>
    rw [List.flatMap_cons, List.length_append, ih, List.length_cons]
    have : (wordBytes a).length = 4 := rfl
    omega

theorem length_argBlock : (argBlock sp argv).length = 4 * (argv.length + 1) := by
  unfold argBlock
  rw [length_words, List.length_append, length_argPtrs, List.length_singleton]

@[simp] theorem Img.withStrings_sz : (g.withStrings sp argv).sz = g.sz := by
  induction argv generalizing g sp with
  | nil => rfl
  | cons arg rest ih => exact ih

@[simp] theorem Img.withStrings_perm : (g.withStrings sp argv).perm = g.perm := by
  induction argv generalizing g sp with
  | nil => rfl
  | cons arg rest ih => exact ih

theorem sub32_eq {a n : ℕ} (ha : a < 2 ^ 32) (h : n ≤ a) : sub32 a n = a - n := by
  unfold sub32
  omega

/-- The two steps by which the code moves the stack pointer. -/
theorem sub32_push {n : ℕ} (hsp : sp < 2 ^ 32) (h : n ≤ sp) :
    sub32 (sub32 sp n) (sub32 sp n % 16) = argPush sp n := by
  rw [sub32_eq hsp h, sub32_eq (by omega) (Nat.mod_le _ _)]
  unfold argPush
  omega

/-! ## The code -/

/-- `copyout` into one page of the user, of any process. -/
theorem copyout_page {dst off : ℕ} {src : List UInt8} (hdst : dst = pgsize * v + off)
    (hoff : off + src.length ≤ pgsize) (hpos : 0 < src.length) (hv : pgsize * v < maxva)
    (hu : UserPage s.mem root v) (hw : (pte s.mem root v).testBit wBit = true)
    (hp : pte2pa (pte s.mem root v) ≠ 0) : copyout K self root dst src s =
      .ok (true, { s with mem := s.mem.write (pte2pa (pte s.mem root v) + off) src }) := by
  have hdiv := mul_div_pgsize v
  have hdown : pgrounddown dst = pgsize * v := by
    simp only [pgrounddown, pgsize] at *
    omega
  have hframe : frameFor K self root (pgsize * v) s = .ok (pte2pa (pte s.mem root v), s) := by
    unfold frameFor
    have hwalk : walkaddr root (pgsize * v) s = .ok (pte2pa (pte s.mem root v), s) := by
      rw [walkaddr_eq, hdiv, if_pos ⟨hv, hu.valid, hu.user⟩]
    rw [Det.bind_ok hwalk, if_neg hp]
    rfl
  obtain ⟨t, hd⟩ := Option.ne_none_iff_exists'.1 (dir_of_valid hu.valid)
  have hld := ld_of_dir hd
  have hturns : turns = 2 ^ 20 - 1 + 1 + 1 := rfl
  have hmin : min (pgsize - (dst - pgsize * v)) src.length = src.length := by omega
  have hsub : dst - pgsize * v = off := by omega
  unfold copyout
  rw [hturns]
  unfold copyoutLoop
  rw [if_pos hpos, hdown, if_neg (by omega), Det.bind_ok hframe, if_neg hp, Det.bind_ok (walk_read hv), hdiv,
    hd, Option.map_some, Option.getD_some, loadWord_bind, hld, hw, if_neg (by decide)]
  simp only [hmin]
  rw [poke_bind, hsub, List.take_length, List.drop_length]
  unfold copyoutLoop
  rw [if_neg (by decide)]
  rfl

namespace Building

section

variable (hg₀ : Good K s₀ ({tf} + R)) (h : Building K root tf g s₀ s)

include hg₀ h

/-- `copyout` into one page of an image. -/
theorem copyout {Q : Bool → Phys → Prop} {dst : ℕ} {src : List UInt8} (hv : v < pgs g.sz)
    (hu : (g.perm v).testBit uBit = true) (hw : (g.perm v).testBit wBit = true)
    (hlow : pgsize * v ≤ dst) (hhigh : dst + src.length ≤ pgsize * (v + 1)) (hpos : 0 < src.length)
    (hok : ∀ s', Building K root tf (g.load dst src) s₀ s' → Q true s') :
    Det.Ends E (Vm.copyout K self root dst src) s Q := by
  have hpg := h.space.pgs_le_num
  obtain ⟨p, hp, he⟩ := h.page v hv
  have hdst : dst = pgsize * v + (dst - pgsize * v) := by omega
  have hoff : dst - pgsize * v + src.length ≤ pgsize := by
    simp only [pgsize] at *
    omega
  have hp0 : pte2pa (pte s.mem root v) ≠ 0 := by
    rw [he, pte2pa_entry hp.aligned (h.perm v hv)]
    have h₁ := hp.low
    have h₂ := K.kend_ge
    omega
  refine .of_eq (copyout_page hdst hoff hpos (by simp only [pgsize, maxva]; omega) (h.userPage hv hu)
    (by rw [h.testBit_of_pos hv (by decide) (by decide)]; exact hw) hp0) (hok _ ?_)
  have hbuild := h.poke hg₀ (dst - pgsize * v) hv hu hoff
  rw [← hdst] at hbuild
  exact hbuild

variable (hv : v < pgs g.sz) (hv0 : 0 < v) (hu : (g.perm v).testBit uBit = true)
  (hw : (g.perm v).testBit wBit = true) (hlen : ∀ arg ∈ argv, arg.length < pgsize)

include hv hv0 hu hw hlen

/-- The strings. -/
theorem pushArgs {Q : Option (ℕ × List ℕ) → Phys → Prop} {ustack : List ℕ} (hlow : pgsize * v ≤ sp)
    (hhigh : sp ≤ pgsize * (v + 1)) (hcount : ustack.length + argv.length < maxarg)
    (hok : ∀ s', pgsize * v ≤ argSp sp argv → Building K root tf (g.withStrings sp argv) s₀ s' →
      Q (some (argSp sp argv, ustack ++ argPtrs sp argv)) s')
    (hbad : ∀ g' s', ¬ pgsize * v ≤ argSp sp argv → g'.sz = g.sz → Building K root tf g' s₀ s' →
      Q none s') :
    Det.Ends E (Vm.pushArgs K self root (pgsize * v) argv sp ustack) s Q := by
  induction argv generalizing g s sp ustack with
  | nil =>
    have hq := hok s hlow h
    rw [argPtrs, List.append_nil] at hq
    exact .pure hq
  | cons arg rest ih =>
    have hpg := h.space.pgs_le_num
    have harg := hlen arg List.mem_cons_self
    have hsp : sp < 2 ^ 32 := by
      simp only [pgsize] at *
      omega
    have hle : arg.length + 1 ≤ sp := by
      simp only [pgsize] at *
      omega
    have hpush := argPush_le sp (arg.length + 1)
    rw [List.length_cons] at hcount
    unfold Vm.pushArgs
    rw [if_neg (by omega)]
    simp only [sub32_push hsp hle]
    by_cases hfit : argPush sp (arg.length + 1) < pgsize * v
    · rw [if_pos hfit]
      have hrest : argSp (argPush sp (arg.length + 1)) rest ≤ argPush sp (arg.length + 1) := argSp_le
      refine .pure (hbad g s (fun hx => ?_) rfl h)
      rw [argSp] at hx
      omega
    · rw [if_neg hfit]
      have hslen : (arg ++ [0]).length = arg.length + 1 := by simp
      refine .bind (h.copyout hg₀ hv hu hw (by omega) (by rw [hslen]; omega) (by rw [hslen]; omega)
        fun s₁ h₁ => ?_)
      rw [if_pos rfl]
      have hword : pushWord ustack (argPush sp (arg.length + 1)) s₁ =
          .ok (ustack ++ [argPush sp (arg.length + 1)], s₁) := by
        unfold pushWord
        rw [if_pos (by omega)]
        rfl
      refine .bind (.of_eq hword (ih h₁ hv hu hw (fun a ha => hlen a (List.mem_cons_of_mem _ ha))
        (by omega) (by omega) ?_ (fun s₂ hfit₂ h₂ => ?_) fun g' s₂ hno hsz h₂ => hbad g' s₂ hno hsz h₂))
      · rw [List.length_append, List.length_singleton]
        omega
      · have hq := hok s₂ hfit₂ h₂
        rw [argPtrs, List.append_cons] at hq
        exact hq

/-- The arguments, when they fit. -/
theorem pushStack {Q : Option ℕ → Phys → Prop} (hsz : g.sz = pgsize * (v + 1))
    (hcount : argv.length < maxarg)
    (hok : ∀ s', ArgsFit g.sz argv → Building K root tf (g.withArgs argv) s₀ s' →
      Q (some (blockSp g.sz argv)) s')
    (hbad : ∀ g' s', ¬ ArgsFit g.sz argv → g'.sz = g.sz → Building K root tf g' s₀ s' → Q none s') :
    Det.Ends E (Vm.pushStack K self root argv g.sz) s Q := by
  have hpg := h.space.pgs_le_num
  have hbase : g.sz - userstack * pgsize = pgsize * v := by
    rw [hsz]
    simp only [userstack, pgsize]
    omega
  have hbase32 : sub32 g.sz (userstack * pgsize) = pgsize * v := by
    rw [sub32_eq (by rw [hsz]; simp only [pgsize] at *; omega) (by
      rw [hsz]
      simp only [userstack, pgsize]
      omega), hbase]
  have hfit : ArgsFit g.sz argv ↔ pgsize * v ≤ blockSp g.sz argv := by
    unfold ArgsFit
    rw [hbase]
  unfold Vm.pushStack
  simp only [hbase32]
  have hle : argSp g.sz argv ≤ g.sz := argSp_le
  have hblock := argPush_le (argSp g.sz argv) (4 * (argv.length + 1))
  refine .bind (h.pushArgs hg₀ hv hv0 hu hw hlen (by rw [hsz]; simp only [pgsize]; omega)
    (Nat.le_of_eq hsz) (by rw [List.length_nil]; omega) (fun s₁ hlow h₁ => ?_) fun g' s₁ hno hsz' h₁ => ?_)
  · rw [List.nil_append]
    have hword : pushWord (argPtrs g.sz argv) 0 s₁ = .ok (argPtrs g.sz argv ++ [0], s₁) := by
      unfold pushWord
      rw [length_argPtrs, if_pos hcount]
      rfl
    refine .bind (.of_eq hword ?_)
    have h4 : 4 * (argv.length + 1) ≤ argSp g.sz argv := by
      simp only [maxarg, pgsize] at *
      omega
    have hlt : argSp g.sz argv < 2 ^ 32 := by
      simp only [pgsize] at *
      omega
    simp only [sub32_push hlt h4]
    by_cases hout : argPush (argSp g.sz argv) (4 * (argv.length + 1)) < pgsize * v
    · rw [if_pos hout]
      exact .pure (hbad _ s₁ (fun hx => by rw [hfit] at hx; unfold blockSp at hx; omega)
        Img.withStrings_sz h₁)
    · rw [if_neg hout]
      have hl : (argBlock g.sz argv).length = 4 * (argv.length + 1) := length_argBlock
      have he : (argPtrs g.sz argv ++ [0]).flatMap wordBytes = argBlock g.sz argv := rfl
      rw [he]
      refine .bind (h₁.copyout hg₀ (by rw [Img.withStrings_sz]; exact hv)
        (by rw [Img.withStrings_perm]; exact hu) (by rw [Img.withStrings_perm]; exact hw) (by omega)
        (by rw [hl, ← hsz]; omega) (by omega) fun s₂ h₂ => ?_)
      rw [if_pos rfl]
      refine .pure (hok s₂ ?_ h₂)
      rw [hfit]
      unfold blockSp
      omega
  · refine .pure (hbad g' s₁ (fun hx => hno ?_) hsz' h₁)
    rw [hfit] at hx
    unfold blockSp at hx
    omega

end

/-- The size is rounded up. -/
theorem round (h : Building K root tf g s₀ s) :
    Building K root tf { g with sz := pgsize * pgs g.sz } s₀ s := by
  have hpgs : pgs (pgsize * pgs g.sz) = pgs g.sz := pgs_mul _
  have hpg := h.space.pgs_le_num
  have hsp : Space K s.mem root (pgsize * pgs g.sz) tf := (h.space.extend
    (by simp only [pgs, pgsize]; omega) (by simp only [trapframe, trampoline, pgsize] at *; omega)).1
  refine ⟨⟨hsp, fun v hv => ?_, fun v hv => ?_, fun a ha => ?_⟩, ?_⟩
  all_goals simp only [hpgs] at *
  · exact h.page v hv
  · exact h.perm v hv
  · exact h.byte a ha
  · exact h.moves

/-- The guard page, the stack and the arguments. -/
theorem buildStack {Q : ℕ × Option ℕ → Phys → Prop} (hg₀ : Good K s₀ ({tf} + R))
    (h : Building K root tf g s₀ s) (hlen : ∀ arg ∈ argv, arg.length < pgsize)
    (hcount : argv.length < maxarg)
    (hok : ∀ s', ArgsFit g.withStack.sz argv → Building K root tf (g.withStack.withArgs argv) s₀ s' →
      Q (g.withStack.sz, some (blockSp g.withStack.sz argv)) s')
    (hbad : ∀ g' s', ((∃ s₁, Vm.uvmalloc K root (pgsize * pgs g.sz) g.withStack.sz pteW s =
      .ok (0, s₁)) ∨
      ¬ ArgsFit g.withStack.sz argv) → Building K root tf g' s₀ s' → Q (g'.sz, none) s') :
    Det.Ends E (Vm.buildStack K self root argv g.sz) s Q := by
  have hpg := h.space.pgs_le
  have hsize := h.space.size
  have htf : tfPage = 16125 := by decide
  have hround : pgroundup g.sz = pgsize * pgs g.sz := pgroundup_eq (by
    simp only [trapframe, trampoline, pgsize] at *
    omega)
  have hsz : g.withStack.sz = pgsize * (pgs g.sz + userstack + 1) := rfl
  have hnew : (pgsize * pgs g.sz + (userstack + 1) * pgsize) % 2 ^ 32 = g.withStack.sz := by
    rw [hsz]
    simp only [userstack, pgsize]
    omega
  -- the image with its size rounded
  obtain ⟨g₁, hg₁⟩ : ∃ g₁ : Img, g₁ = { g with sz := pgsize * pgs g.sz } := ⟨_, rfl⟩
  have hpgs : pgs g₁.sz = pgs g.sz := by
    rw [hg₁]
    exact pgs_mul _
  have hsz₁ : g₁.sz = pgsize * pgs g.sz := by rw [hg₁]
  have hstack : (g₁.grow g.withStack.sz (pteR ||| pteU ||| pteW)).guard (pgs g.sz) = g.withStack := by
    unfold Img.withStack Img.grow
    rw [hpgs, hg₁]
    rfl
  have hb₁ : Building K root tf g₁ s₀ s := by
    rw [hg₁]
    exact h.round
  have halloc : Det.Ends (fun _ => False) (Vm.uvmalloc K root g₁.sz g.withStack.sz pteW) s fun r s' =>
      r = 0 ∧ Building K root tf g₁ s₀ s' ∨ r = g.withStack.sz ∧
        Building K root tf (g₁.grow g.withStack.sz (pteR ||| pteU ||| pteW)) s₀ s' :=
    hb₁.uvmalloc hg₀ (by rw [hsz]; simp only [userstack, pgsize] at *; omega) (by decide) (by decide)
      (fun hless => absurd hless (by rw [hsz, hsz₁]; simp only [userstack, pgsize]; omega))
      (fun s' _ hb => .inr ⟨rfl, hb⟩) fun s' hb => .inl ⟨rfl, hb⟩
  rw [hsz₁] at halloc
  obtain ⟨r, s', hrun, hr⟩ := halloc.returns
  unfold Vm.buildStack
  simp only [hround, hnew]
  refine .bind (.of_eq hrun ?_)
  obtain ⟨rfl, hb⟩ | ⟨rfl, hb⟩ := hr
  · rw [if_pos rfl, ← hsz₁]
    exact .pure (hbad g₁ s' (.inl ⟨s', hrun⟩) hb)
  · have hguard : sub32 g.withStack.sz ((userstack + 1) * pgsize) = pgsize * pgs g.sz := by
      rw [hsz, sub32_eq (by simp only [userstack, pgsize] at *; omega)
        (by simp only [userstack, pgsize]; omega)]
      simp only [userstack, pgsize]
      omega
    have hpgs₂ : pgs g.withStack.sz = pgs g.sz + 2 := by
      rw [hsz]
      exact pgs_mul _
    rw [if_neg (by rw [hsz]; simp only [userstack, pgsize]; omega), hguard]
    refine .bind (hb.uvmclear hg₀ (show pgs g.sz < pgs g.withStack.sz by omega) fun s₂ h₂ => ?_)
    rw [hstack] at h₂
    have hperm : g.withStack.perm (pgs g.sz + 1) = pteR ||| pteU ||| pteW := by
      show Function.update _ _ _ _ = _
      rw [Function.update_of_ne (by omega)]
      exact if_neg (by omega)
    refine .bind (h₂.pushStack hg₀ (v := pgs g.sz + 1) (by omega) (by omega) (by rw [hperm]; decide)
      (by rw [hperm]; decide) hlen rfl hcount (fun s₃ hfit h₃ => .pure (hok s₃ hfit h₃))
      fun g' s₃ hno hsz' h₃ => .pure ?_)
    rw [← hsz']
    exact hbad g' s₃ (.inr hno) h₃

end Building

end Xv6.Vm
