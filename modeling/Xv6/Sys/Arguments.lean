import Xv6.Sys.Kexec
import Xv6.Fs.Consistent

/-!
# The argument block of a program

Where `kexec` puts the arguments, when they fit (`ArgsFit`): the strings in order from the top of the
stack downwards, apart from each other, and below them the array of pointers. Nothing else of the
image changes.
-/

namespace Xv6.Vm

open Conc Eff

variable {g : Img} {argv : List (List UInt8)} {sp a : ℕ} {x : ℕ × List UInt8}

/-- The strings with their addresses. -/
def argStrings (sp : ℕ) (argv : List (List UInt8)) : List (ℕ × List UInt8) := (argPtrs sp argv).zip argv

/-- An address in a string or its NUL. -/
def InString (x : ℕ × List UInt8) (a : ℕ) : Prop := x.1 ≤ a ∧ a < x.1 + (x.2.length + 1)

/-- An address in the strings or in the array of pointers. -/
def InArgs (sz : ℕ) (argv : List (List UInt8)) (a : ℕ) : Prop :=
  (∃ x ∈ argStrings sz argv, InString x a) ∨
    blockSp sz argv ≤ a ∧ a < blockSp sz argv + 4 * (argv.length + 1)

/-! ## Places -/

theorem argPush_room {n : ℕ} (h : 0 < argPush sp n) : argPush sp n + n ≤ sp := by
  unfold argPush at *
  omega

theorem argStrings_bounds (h : 0 < argSp sp argv) (hx : x ∈ argStrings sp argv) :
    argSp sp argv ≤ x.1 ∧ x.1 + (x.2.length + 1) ≤ sp := by
  induction argv generalizing sp with
  | nil => cases hx
  | cons arg rest ih =>
    have hle : argSp (argPush sp (arg.length + 1)) rest ≤ argPush sp (arg.length + 1) := argSp_le
    rw [argSp] at h ⊢
    have hroom := argPush_room (h.trans_le hle)
    obtain rfl | hx := List.mem_cons.1 hx
    · exact ⟨hle, hroom⟩
    · have := ih h hx
      omega

/-- The array lies below the strings. -/
theorem blockSp_room (h : 0 < blockSp sp argv) :
    blockSp sp argv + 4 * (argv.length + 1) ≤ argSp sp argv := argPush_room h

/-- The arguments are in the page of the stack. -/
theorem InArgs.low {sz : ℕ} (hfit : ArgsFit sz argv) (hsz : userstack * pgsize < sz) (h : InArgs sz argv a) :
    sz - userstack * pgsize ≤ a := by
  unfold ArgsFit at hfit
  have hroom := blockSp_room (show 0 < blockSp sz argv by omega)
  obtain ⟨x, hx, hin⟩ | hin := h
  · have hx := (argStrings_bounds (by omega) hx).1
    have := hin.1
    omega
  · exact hfit.trans hin.1

/-! ## Contents -/

/-- A word of an image. -/
def Img.word (g : Img) (a : ℕ) : ℕ := ByteMem.ld g.byte a

/-- The word at a virtual address. -/
def wordAt (m : ByteMem) (root a : ℕ) : Option ℕ := do
  let b₀ ← byteAt m root a
  let b₁ ← byteAt m root (a + 1)
  let b₂ ← byteAt m root (a + 2)
  let b₃ ← byteAt m root (a + 3)
  return b₀.toNat + 256 * b₁.toNat + 65536 * b₂.toNat + 16777216 * b₃.toNat

variable {K : Layout} {m : ByteMem} {root tf : ℕ}

theorem Shape.word (h : Shape K root tf g m) (ha : (a + 3) / pgsize < pgs g.sz) :
    wordAt m root a = some (g.word a) := by
  have hle : ∀ j ≤ 3, (a + j) / pgsize < pgs g.sz := fun j hj =>
    lt_of_le_of_lt (Nat.div_le_div_right (by omega)) ha
  unfold wordAt
  rw [h.byte a (hle 0 (by omega)), h.byte _ (hle 1 (by omega)), h.byte _ (hle 2 (by omega)), h.byte _ ha]
  rfl

section Exec

variable {w : World} {me : ProcId} {R : Multiset ℕ} {path : Fs.Path} {old oldsz ent v : ℕ}
  {sb : Superblock} {b : Bound} {s ph : Phys}

end Exec

end Xv6.Vm
