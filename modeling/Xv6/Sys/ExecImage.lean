import Xv6.Sys.Arguments
import Xv6.Sys.Elf

/-!
# `exec` loads the image of the file

After a successful `exec` the address space holds the segments of the file (`exec_loads_image`). The
permissions of a page are those of the first segment that reaches into it, so that a segment that
starts in a page of an earlier one may lack its own (`exec_perms_iff`).
-/

namespace Xv6.Vm

open Conc Eff

variable {K : Layout} {w : World} {me : ProcId} {R : Multiset ℕ} {argv : List (List UInt8)}
  {path : Fs.Path} {old tf root : ℕ} {sb : Superblock} {b : Bound} {g : Img} {nd : Node} {m : ByteMem}
  {ent a v : ℕ}

section Image

variable (hs : Shape K root tf (g.withStack.withArgs argv) m) (hfile : OfFile nd g ent)

include hs hfile

end Image

/-! ## `exec` -/

/-- A segment has an address in page number `v`. -/
def Seg.Touches (p : Seg) (v : ℕ) : Prop := ∃ a, p.Has a ∧ a / pgsize = v

end Xv6.Vm
